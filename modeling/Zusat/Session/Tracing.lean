import Zusat.Session.Contract

/-! # A proof trace that fails to start

`sat_trace_proof` overwrites two options before it opens the file and sets them back when that fails. The
way back goes through the checks of `sat_option`: they let it pass because the solver is still being
configured and because every option of a reachable solver lies within its bounds. -/

namespace Zusat
open Foundations Foundations.Prog
set_option autoImplicit false

namespace Session
open Handle (Truthful returned)

/-! ## Options within their bounds -/

theorem optionTable_bounds : ∀ o ∈ optionTable,
    naInteger < o.lo ∧ o.lo ≤ o.default ∧ o.default ≤ o.hi := by
  decide +kernel

theorem hasOption_mem {name : String} {o : OptionSpec} (h : hasOption name = some o) :
    o ∈ optionTable ∧ o.name = name :=
  ⟨List.mem_of_find?_eq_some h, by simpa using List.find?_some h⟩

/-- Every option has a value between its bounds. -/
def InBounds (c : Cadical) : Prop :=
  ∀ name o, hasOption name = some o → o.lo ≤ c.opts name ∧ c.opts name ≤ o.hi

theorem inBounds_init : InBounds Cadical.init := by
  intro name o ho
  have hvalue : Cadical.init.opts name = o.default := by
    change ((hasOption name).map OptionSpec.default).getD 0 = _
    rw [ho]
    rfl
  rw [hvalue]
  exact (optionTable_bounds o (hasOption_mem ho).1).2

theorem InBounds.setOpt {c : Cadical} (h : InBounds c) (name : String) (value : ℤ) :
    InBounds (Cadical.setOpt name value c) := by
  intro n o ho
  rw [Cadical.setOpt]
  split
  · exact h n o ho
  · next o' ho' =>
    by_cases hn : n = name
    · subst hn
      obtain rfl : o' = o := Option.some.inj (ho'.symm.trans ho)
      obtain ⟨-, hlo, hhi⟩ := optionTable_bounds o' (hasOption_mem ho').1
      change o'.lo ≤ Function.update c.opts n _ n ∧ Function.update c.opts n _ n ≤ o'.hi
      rw [Function.update_self]
      omega
    · change o.lo ≤ Function.update c.opts name _ n ∧ Function.update c.opts name _ n ≤ o.hi
      rw [Function.update_of_ne hn]
      exact h n o ho

/-- The program keeps every option between its bounds. -/
abbrev KeepsBounds {α : Type} (m : HandleM α) : Prop :=
  Respects (fun h h' => InBounds h.solver → InBounds h'.solver) m

theorem keepsBounds_setOption (name value : SEXP) : KeepsBounds (Handle.zusatSetOption name value) := by
  have law : Along (fun h h' : Handle => InBounds h.solver → InBounds h'.solver)
      (fun _ : RError => fun h h' => InBounds h.solver → InBounds h'.solver) :=
    .of_preorder (fun _ => id) (fun h h' => h' ∘ h)
  have hlooks : ∀ {α : Type} {m : HandleM α}, Cadical.Looks m → KeepsBounds m := fun hm =>
    respects_of_snd fun s => by
      rw [hm.snd s]
      exact id
  have hset : ∀ nm v, KeepsBounds (Handle.call (Cadical.set nm v)) := by
    intro nm v
    have lawC : Along (fun c c' => InBounds c → InBounds c')
        (fun _ : RError => fun c c' => InBounds c → InBounds c') :=
      .of_preorder (fun _ => id) (fun h h' => h' ∘ h)
    have hsolver : Respects (fun c c' => InBounds c → InBounds c') (Cadical.set nm v) :=
      lawC.bind (respects_of_snd fun c => by
          rw [(Cadical.looks_requireValidState _).snd c]
          exact id) fun _ =>
        lawC.bind lawC.read fun _ => lawC.bind (lawC.doIf (lawC.require fun _ => id)) fun _ =>
          Moves.modify fun c h => h.setOpt nm v
    exact Moves.within hsolver (fun _ _ h => h) (fun _ _ _ h => h)
  exact law.bind (hlooks (Handle.looks_ofExcept _)) fun _ =>
    law.bind (hlooks (Handle.looks_ofExcept _)) fun _ =>
      law.bind (hlooks (Cadical.looks_require _ _)) fun _ => law.bind (hset _ _) fun _ =>
        hlooks (Handle.looks_call (Cadical.looks_get _))

theorem opts_traceProof (path : SEXP) (canOpen : Bool) :
    Respects (fun h h' => h'.solver.opts = h.solver.opts) (Handle.zusatTraceProof path canOpen) := by
  have law := along_view (ε := RError) fun h : Handle => h.solver.opts
  have hsolver : ∀ file name, Respects (fun c c' => c'.opts = c.opts)
      (Cadical.traceProof file name) :=
    fun file name =>
      have law := along_view (ε := RError) Cadical.opts
      law.bind (respects_of_snd fun c => congrArg _ ((Cadical.looks_requireValidState _).snd c))
        fun _ => law.bind law.read fun _ => law.bind (law.require fun _ => rfl) fun _ =>
          Moves.modify fun _ => rfl
  exact law.bind (law.ofExcept fun _ _ _ => rfl) fun _ => law.bind law.read fun _ =>
    law.bind (law.require fun _ => rfl) fun _ => law.bind (law.require fun _ => rfl) fun _ =>
      law.bind (law.require fun _ => rfl) fun _ => law.bind (Moves.modify fun _ => rfl) fun _ =>
        law.bind (Moves.within (hsolver _ _) (fun _ _ h => h) (fun _ _ _ h => h)) fun _ =>
          Moves.modify fun _ => rfl

theorem inBounds_step {s : Session} (hs : s.solver.Settled) (hb : InBounds s.solver)
    (c : Call) : InBounds (step s c).2.solver := by
  have law : Along (Through fun h h' => InBounds h.solver → InBounds h'.solver)
      (fun _ : RError => Through fun h h' => InBounds h.solver → InBounds h'.solver) :=
    .of_preorder (fun _ => id) (fun h h' => h' ∘ h)
  have hset : ∀ name value, Respects (Through fun h h' => InBounds h.solver → InBounds h'.solver)
      (satSetOption name value) := fun name value =>
    law.bind (law.ofExcept fun _ _ => law.refl) fun _ =>
      law.bind (law.ofExcept fun _ _ => law.refl) fun _ => law.bind law.read fun _ =>
        law.bind (law.require law.refl) fun _ =>
          Entrywise.follows_onHandle (keepsBounds_setOption _ _)
  have hothers : (∀ n, ¬setsOption c n) → InBounds (step s c).2.solver := by
    intro hnone n o ho
    rw [(step_change hs c).opts n (hnone n)]
    exact hb n o ho
  cases c with
  | setOption name value =>
    rw [step, exported, run_bind_pure]
    exact (hset name value).snd s hb
  | traceProof path format binary canOpen =>
    rw [step, exported, run_bind_pure]
    refine (respects_satTraceProof law (fun nm _ v => hset [some nm] v) (fun path canOpen => ?_) path
      format binary canOpen).snd s hb
    exact Entrywise.follows_onHandle (respects_of_snd fun h => (by
      intro hb n o ho
      rw [(opts_traceProof path canOpen).snd h]
      exact hb n o ho))
  | _ => exact hothers fun _ h => h

theorem inBounds_after (cs : List Call) : InBounds (after cs).solver := by
  have hall : Every step (fun _ _ _ => True) new cs :=
    every_of_forall step (fun _ _ _ _ => trivial) new
  exact (run_invariant step (I := fun s => RangesKnown s ∧ InBounds s.solver)
    (fun s c h _ => ⟨rangesKnown_step h.1 c, inBounds_step h.1.settled h.2 c⟩) ⟨rangesKnown_new, inBounds_init⟩
    hall).2

theorem truthful_after (cs : List Call) : Truthful (after cs).handle := by
  have hall : Every step (fun _ _ _ => True) new cs :=
    every_of_forall step (fun _ _ _ _ => trivial) new
  exact run_invariant step (I := fun s => Truthful s.handle) (fun s c h _ => truthful_step h c)
    Handle.truthful_new hall

/-! ## Reading and setting one option -/

/-- The session with one option set. -/
def withOption (s : Session) (name : String) (v : ℤ) : Session :=
  s.withHandle (s.handle.withSolver { s.solver with opts := Function.update s.solver.opts name v })

@[simp] theorem withOption_opts (s : Session) (name : String) (v : ℤ) :
    (withOption s name v).solver.opts = Function.update s.solver.opts name v := rfl

section Option
variable {s : Session} {name : String} {o : OptionSpec}

theorem optionNamed_ok (ho : hasOption name = some o) :
    satGetOption.optionNamed [some name] = .ok o := by
  rw [satGetOption.optionNamed, ho]

theorem optionName_ok (ho : hasOption name = some o) :
    Handle.optionName (.str [some name]) = .ok o := by
  rw [Handle.optionName, ho]

theorem run_get {h : Handle} (hv : h.solver.state.valid = true) (ho : hasOption name = some o) :
    (Handle.call (Cadical.get name)).run h = (.ok (h.solver.opts name), h) := by
  have hrun : (Cadical.get name).run h.solver = (.ok (h.solver.opts name), h.solver) := by
    rw [Cadical.get, run_bind, Cadical.requireValidOrSolvingState, run_bind, run_read, andThen_ok,
      ApiState.validOrSolving, hv, Bool.true_or, run_require_true, andThen_ok, run_bind, run_read, andThen_ok, ho]
    rfl
  rw [Handle.run_call hrun, Handle.withSolver_self]

theorem run_satGetOption (hv : s.solver.state.valid = true) (ho : hasOption name = some o) :
    (satGetOption [some name]).run s = (.ok (s.solver.opts name), s) := by
  have hname := (hasOption_mem ho).2
  have hrun : (Handle.zusatGetOption (.str [some o.name])).run s.handle =
      (.ok (s.solver.opts name), s.handle) := by
    rw [Handle.zusatGetOption, hname, optionName_ok ho, run_bind, run_ofExcept_ok, andThen_ok, hname]
    exact run_get hv ho
  rw [satGetOption, optionNamed_ok ho, run_bind, run_ofExcept_ok, andThen_ok, run_onHandle hrun,
    withHandle_self]

theorem optionValue_ints {v : ℤ} (hlo : o.lo ≤ v) (hhi : v ≤ o.hi) :
    optionValue o (.ints [v]) = .ok v := by
  have hlt : RNum.lt (.fin v) o.lo = false := by
    rw [RNum.lt, decide_eq_false_iff_not, not_lt]
    exact_mod_cast hlo
  have hgt : RNum.gt (.fin v) o.hi = false := by
    rw [RNum.gt, decide_eq_false_iff_not, not_lt]
    exact_mod_cast hhi
  change optionValue o (.num [.fin v]) = .ok v
  rw [optionValue, if_neg (show ¬RNum.isNA (.fin v) = true from Bool.false_ne_true),
    if_neg (by simp [RNum.isWhole]), hlt, hgt, if_neg (by decide), RNum.asInteger_intCast]

theorem run_set {h : Handle} (ht : Truthful h) (hc : h.configuring = true)
    (ho : hasOption name = some o) {v : ℤ} (hlo : o.lo ≤ v) (hhi : v ≤ o.hi) :
    (Handle.call (Cadical.set name v)).run h =
      (.ok (), h.withSolver { h.solver with opts := Function.update h.solver.opts name v }) := by
  have hstate := ht.configuring hc
  have hrun : (Cadical.set name v).run h.solver =
      (.ok (), { h.solver with opts := Function.update h.solver.opts name v }) := by
    have hset : Cadical.setOpt name v h.solver =
        { h.solver with opts := Function.update h.solver.opts name v } := by
      rw [Cadical.setOpt, ho]
      change { h.solver with opts := Function.update h.solver.opts name (max o.lo (min v o.hi)) } = _
      rw [min_eq_left hhi, max_eq_right hlo]
    rw [Cadical.set, run_bind, Cadical.run_requireValidState (ht.valid_configuring hc), andThen_ok, run_bind, run_read,
      andThen_ok, run_bind, hstate]
    cases Cadical.reportingOptions.contains name with
    | false =>
      rw [Bool.not_false, run_doIf_true, beq_self_eq_true, run_require_true, andThen_ok, run_modify,
        hset]
    | true => rw [Bool.not_true, run_doIf_false, andThen_ok, run_modify, hset]
  exact Handle.run_call hrun

theorem run_satSetOption (ht : Truthful s.handle) (hc : s.handle.configuring = true)
    (ho : hasOption name = some o) {v : ℤ} (hlo : o.lo ≤ v) (hhi : v ≤ o.hi) :
    (satSetOption [some name] (.ints [v])).run s = (.ok v, withOption s name v) := by
  have hname := (hasOption_mem ho).2
  have hna : ¬v = naInteger := by
    have := (optionTable_bounds o (hasOption_mem ho).1).1
    omega
  have hint : Handle.asInt "option value must be a single integer" (.int [v]) = .ok v := if_neg hna
  have hrange : (decide (o.lo ≤ v) && decide (v ≤ o.hi)) = true := by
    rw [decide_eq_true hlo, decide_eq_true hhi]
    rfl
  have hrun : (Handle.zusatSetOption (.str [some o.name]) (.int [v])).run s.handle =
      (.ok v, (withOption s name v).handle) := by
    rw [Handle.zusatSetOption, hname, optionName_ok ho, run_bind, run_ofExcept_ok, andThen_ok, hint,
      run_bind, run_ofExcept_ok, andThen_ok, hrange, run_bind, run_require_true, andThen_ok, hname,
      run_bind, run_set ht hc ho hlo hhi, andThen_ok]
    change (Handle.call (Cadical.get name)).run (withOption s name v).handle = _
    rw [run_get (h := (withOption s name v).handle) (ht.valid_configuring hc) ho]
    change (Except.ok (Function.update s.solver.opts name v name), _) = _
    rw [Function.update_self]
  rw [satSetOption, optionNamed_ok ho, run_bind, run_ofExcept_ok, andThen_ok,
    optionValue_ints hlo hhi, run_bind, run_ofExcept_ok, andThen_ok, run_bind, run_read, andThen_ok,
    hc, Bool.or_true, run_bind, run_require_true, andThen_ok, run_onHandle hrun]
  rfl

end Option

/-! ## Starting a trace -/

/-- The tracer a call asks for: the first format enabled, LRAT being enabled by the call itself. -/
def askedKind (opts : Options) (lrat : Bool) : TracerKind :=
  if opts "veripb" ≠ 0 then .veripb
  else if opts "frat" ≠ 0 then .frat
  else if lrat then .lrat
  else if opts "idrup" ≠ 0 then .idrup
  else if opts "lidrup" ≠ 0 then .lidrup
  else .drat

theorem hasOption_binary : hasOption "binary" = some ⟨"binary", 1, 0, 1⟩ := by decide

theorem hasOption_lrat : hasOption "lrat" = some ⟨"lrat", 0, 0, 1⟩ := by decide

section Trace
variable {s : Session}

/-- Setting the two options back undoes setting them. -/
theorem withOption_back (s : Session) (b l : ℤ) :
    withOption (withOption (withOption (withOption s "binary" b) "lrat" l) "binary"
      (s.solver.opts "binary")) "lrat" (s.solver.opts "lrat") = s := by
  have hopts : Function.update (Function.update (Function.update (Function.update s.solver.opts
      "binary" b) "lrat" l) "binary" (s.solver.opts "binary")) "lrat" (s.solver.opts "lrat") =
        s.solver.opts := by
    funext n
    by_cases hl : n = "lrat"
    · rw [hl, Function.update_self]
    · rw [Function.update_of_ne hl]
      by_cases hb : n = "binary"
      · rw [hb, Function.update_self]
      · rw [Function.update_of_ne hb, Function.update_of_ne hl, Function.update_of_ne hb]
  exact congrArg (fun opts => s.withHandle (s.handle.withSolver { s.solver with opts := opts })) hopts

/-- The option value for a choice. -/
theorem choice_bounds (b : Bool) : 0 ≤ (if b then 1 else 0 : ℤ) ∧ (if b then 1 else 0 : ℤ) ≤ 1 := by
  cases b <;> decide

/-- Setting both options, from a solver that is being configured. -/
theorem run_setBoth {α : Type} (ht : Truthful s.handle) (hc : s.handle.configuring = true) {b l : ℤ}
    (hb : 0 ≤ b ∧ b ≤ 1) (hl : 0 ≤ l ∧ l ≤ 1) (m : SessionM α) :
    (satSetOption [some "binary"] (.ints [b]) >>= fun _ =>
      satSetOption [some "lrat"] (.ints [l]) >>= fun _ => m).run s =
        m.run (withOption (withOption s "binary" b) "lrat" l) ∧
      Truthful (withOption (withOption s "binary" b) "lrat" l).handle := by
  have hset := run_satSetOption ht hc hasOption_binary hb.1 hb.2
  have ht₁ := truthful_setOption ht [some "binary"] (.ints [b])
  rw [hset] at ht₁
  have hset₁ := run_satSetOption ht₁ hc hasOption_lrat hl.1 hl.2
  have ht₂ := truthful_setOption ht₁ [some "lrat"] (.ints [l])
  rw [hset₁] at ht₂
  refine ⟨?_, ht₂⟩
  rw [run_bind, hset, andThen_ok, run_bind, hset₁, andThen_ok]

/-- The session with both options as a call asks for them. -/
def askedOptions (s : Session) (lrat b : Bool) : Session :=
  withOption (withOption s "binary" (if b then 1 else 0)) "lrat" (if lrat then 1 else 0)

theorem askedOptions_kind (s : Session) (lrat b : Bool) :
    (askedOptions s lrat b).solver.tracerKind = askedKind s.solver.opts lrat := by
  have hopts : ∀ n, n ≠ "binary" → n ≠ "lrat" →
      (askedOptions s lrat b).solver.opts n = s.solver.opts n := by
    intro n hb hl
    rw [askedOptions, withOption_opts, withOption_opts, Function.update_of_ne hl,
      Function.update_of_ne hb]
  have hlrat : (askedOptions s lrat b).solver.opts "lrat" = if lrat then 1 else 0 := by
    rw [askedOptions, withOption_opts, Function.update_self]
  rw [Cadical.tracerKind, askedKind, hopts "veripb" (by decide) (by decide),
    hopts "frat" (by decide) (by decide), hopts "idrup" (by decide) (by decide),
    hopts "lidrup" (by decide) (by decide), hlrat]
  cases lrat <;> rfl

/-- The tracer that joins has the format and the encoding the call asks for. -/
theorem tracers_started (s : Session) (lrat b : Bool) (file : ℕ) :
    (Handle.tracing (askedOptions s lrat b).solver file).fileTracers =
      s.solver.fileTracers ++ [⟨askedKind s.solver.opts lrat, b, file, false⟩] := by
  have hbinary : (askedOptions s lrat b).solver.opts "binary" = if b then 1 else 0 := by
    rw [askedOptions, withOption_opts, withOption_opts, Function.update_of_ne (by decide),
      Function.update_self]
  rw [Handle.tracing, askedOptions_kind, hbinary]
  cases b <;> rfl

/-- The part of `sat_trace_proof` that follows the checks of its arguments. -/
theorem startTrace_cases (ht : Truthful s.handle) (hb : InBounds s.solver)
    (hc : s.handle.configuring = true) (p : String) (lrat b canOpen : Bool) :
    let start : SessionM Unit := onError
      (do
        let _ ← satSetOption [some "binary"] (.ints [if b then 1 else 0])
        let _ ← satSetOption [some "lrat"] (.ints [if lrat then 1 else 0])
        onHandle (Handle.zusatTraceProof (.str [some p]) canOpen))
      (do
        let _ ← satSetOption [some "binary"] (.ints [s.solver.opts "binary"])
        let _ ← satSetOption [some "lrat"] (.ints [s.solver.opts "lrat"])
        pure ())
    (∃ e, start.run s = (.error e, s)) ∨ ∃ s', start.run s = (.ok (), s') ∧
      s'.solver.fileTracers = s.solver.fileTracers ++
        [⟨askedKind s.solver.opts lrat, b, s.handle.opened, false⟩] := by
  intro start
  obtain ⟨hset, ht₂⟩ := run_setBoth ht hc (choice_bounds b) (choice_bounds lrat)
    (onHandle (Handle.zusatTraceProof (.str [some p]) canOpen))
  rcases Handle.zusatTraceProof_cases ht₂ (.str [some p]) canOpen with ⟨text, htrace⟩ | htrace
  · rw [run_onHandle htrace, withHandle_self] at hset
    obtain ⟨hback, -⟩ := run_setBoth ht₂ hc (hb _ _ hasOption_binary) (hb _ _ hasOption_lrat)
      (pure () : SessionM Unit)
    rw [withOption_back, run_pure] at hback
    refine .inl ⟨.stop text, ?_⟩
    rw [run_onError_error hset, run_bind, hback]
    rfl
  · rw [run_onHandle htrace] at hset
    exact .inr ⟨_, run_onError_ok hset, tracers_started s lrat b s.handle.opened⟩

/-- A trace that starts adds one tracer; one that does not leaves the session as it was. -/
theorem satTraceProof_cases (ht : Truthful s.handle) (hb : InBounds s.solver)
    (path format binary : RValue) (canOpen : Bool) :
    (∃ e, (satTraceProof path format binary canOpen).run s = (.error e, s)) ∨
      ∃ lrat b s', matchFormat format = .ok lrat ∧ binary = .lgl [some b] ∧
        (satTraceProof path format binary canOpen).run s = (.ok (), s') ∧
        s'.solver.fileTracers = s.solver.fileTracers ++
          [⟨askedKind s.solver.opts lrat, b, s.handle.opened, false⟩] := by
  unfold satTraceProof
  rw [run_bind]
  cases matchFormat format with
  | error e => exact .inl ⟨e, rfl⟩
  | ok lrat =>
    rw [run_ofExcept_ok, andThen_ok, run_bind]
    match path with
    | .chr [some p] =>
      rw [run_ofExcept_ok, andThen_ok, run_bind]
      match binary with
      | .lgl [some b] =>
        rw [run_ofExcept_ok, andThen_ok, run_bind, run_read, andThen_ok, run_bind]
        cases hc : s.handle.configuring with
        | false => exact .inl ⟨_, rfl⟩
        | true =>
          have hv := ht.valid_configuring hc
          rw [run_require_true, andThen_ok, run_bind, run_satGetOption hv hasOption_binary,
            andThen_ok, run_bind, run_satGetOption hv hasOption_lrat, andThen_ok]
          rcases startTrace_cases ht hb hc p lrat b canOpen with hfail | ⟨s', hrun, htracers⟩
          · exact .inl hfail
          · exact .inr ⟨lrat, b, s', rfl, rfl, hrun, htracers⟩
      | .lgl [] | .lgl (none :: _) | .lgl (some _ :: _ :: _) => exact .inl ⟨_, rfl⟩
      | .null | .num _ | .chr _ | .other _ => exact .inl ⟨_, rfl⟩
    | .chr [] | .chr (none :: _) | .chr (some _ :: _ :: _) => exact .inl ⟨_, rfl⟩
    | .null | .num _ | .lgl _ | .other _ => exact .inl ⟨_, rfl⟩

end Trace

/-- A call of `sat_trace_proof` that raises an error leaves the whole session as it was. One that returns
has connected one tracer: its encoding is the one asked for, and its format depends on the format asked for
and on the four options that go before or after it. -/
theorem trace_proof_atomic (cs : List Call) (path format binary : RValue) (canOpen : Bool) :
    (∀ e s', (satTraceProof path format binary canOpen).run (after cs) = (.error e, s') →
      s' = after cs) ∧
    (∀ s', (satTraceProof path format binary canOpen).run (after cs) = (.ok (), s') →
      ∃ lrat b, matchFormat format = .ok lrat ∧ binary = .lgl [some b] ∧
        s'.solver.fileTracers = (after cs).solver.fileTracers ++
          [⟨askedKind (after cs).solver.opts lrat, b, (after cs).handle.opened, false⟩]) := by
  rcases satTraceProof_cases (truthful_after cs) (inBounds_after cs) path format binary canOpen with
    ⟨e, hrun⟩ | ⟨lrat, b, t, hformat, hbinary, hrun, htracers⟩
  · constructor
    · intro e' s' h
      rw [hrun] at h
      exact (Prod.ext_iff.mp h).2.symm
    · intro s' h
      rw [hrun] at h
      cases h
  · constructor
    · intro e' s' h
      rw [hrun] at h
      cases h
    · intro s' h
      rw [hrun] at h
      obtain rfl : t = s' := (Prod.ext_iff.mp h).2
      exact ⟨lrat, b, hformat, hbinary, htracers⟩

/-- A file that cannot be opened, and one that can. -/
theorem trace_proof_atomic_both :
    let s := after [.setOption [some "lrat"] (.ints [1])]
    (∃ e s', (satTraceProof (.chr [some "missing/proof"]) (.chr [some "drat"]) (.lgl [some false])
      false).run s = (.error e, s') ∧ s' = s) ∧
    ∃ s', (satTraceProof (.chr [some "proof"]) (.chr [some "lrat"]) (.lgl [some false]) true).run s =
      (.ok (), s') ∧ s'.solver.fileTracers = [⟨.lrat, false, 0, false⟩] := by
  intro s
  constructor
  · rcases hrun : (satTraceProof (.chr [some "missing/proof"]) (.chr [some "drat"]) (.lgl [some false])
      false).run s with ⟨r, s'⟩
    have hraised : returned ((satTraceProof (.chr [some "missing/proof"]) (.chr [some "drat"])
      (.lgl [some false]) false).run s).1 = false := by decide +kernel
    rw [hrun] at hraised
    cases r with
    | ok u => cases hraised
    | error e => exact ⟨e, s', rfl, (trace_proof_atomic _ _ _ _ _).1 e s' hrun⟩
  · rcases hrun : (satTraceProof (.chr [some "proof"]) (.chr [some "lrat"]) (.lgl [some false])
      true).run s with ⟨r, s'⟩
    have hreturned : returned ((satTraceProof (.chr [some "proof"]) (.chr [some "lrat"])
      (.lgl [some false]) true).run s).1 = true := by decide +kernel
    rw [hrun] at hreturned
    cases r with
    | error e => cases hreturned
    | ok u =>
      obtain ⟨lrat, b, hformat, hbinary, htracers⟩ := (trace_proof_atomic _ _ _ _ _).2 s' hrun
      obtain rfl : true = lrat := Except.ok.inj hformat
      obtain rfl : false = b := by simpa using hbinary
      exact ⟨s', rfl, htracers⟩

end Session
end Zusat
