import Zusat.Handle.Evolves
import Zusat.Handle.Mirror

/-! # What a raised flag promises, also after errors

An error out of CaDiCaL can leave a clause half added, and then the flags no longer say everything about
CaDiCaL's state. What they do say stays true: whatever a raised flag allows is allowed by CaDiCaL too,
after any sequence of entry calls, however each of them ended. -/

namespace Zusat
open Foundations Foundations.Prog
set_option autoImplicit false

namespace Handle
open Cadical (Looks looks_require looks_requireValidState looks_get)

/-- Every flag that is up tells the truth. -/
structure Truthful (h : Handle) : Prop where
  settled : h.solver.state.valid = true ∨ h.solver.state = .solving
  configuring : h.configuring = true → h.solver.state = .configuring
  satisfied : h.lastStatus = 10 → h.solver.state = .satisfied
  unsatisfied : h.lastStatus = 20 → h.solver.state = .unsatisfied
  concludable : h.concludable = true → h.solver.state.ended = true
  traced : h.proofTraced = true → h.solver.fileTracers.getLast?.any (fun t => !t.closed) = true

theorem truthful_new : Truthful new :=
  ⟨.inl rfl, fun _ => rfl, nofun, nofun, nofun, nofun⟩

/-- The proof file and its tracer are as before. -/
def SameProof (h h' : Handle) : Prop :=
  h'.proofTraced = h.proofTraced ∧ h'.solver.fileTracers = h.solver.fileTracers

section Step
variable {h h' : Handle}

/-- A handle that is still configured is in a valid state. -/
theorem Truthful.valid_configuring (ht : Truthful h) (hc : h.configuring = true) :
    h.solver.state.valid = true := by
  rw [ht.configuring hc]
  rfl

/-- Flags that are down promise nothing. -/
theorem Truthful.lowered (ht : Truthful h) (hc : h'.configuring = false) (hl : h'.lastStatus = 0)
    (hn : h'.concludable = false) (hs : h'.solver.state.valid = true ∨ h'.solver.state = .solving) (hp : SameProof h h') :
    Truthful h' where
  settled := hs
  configuring := fun h => absurd (hc.symm.trans h) Bool.false_ne_true
  satisfied := fun h => absurd (hl.symm.trans h) (by decide)
  unsatisfied := fun h => absurd (hl.symm.trans h) (by decide)
  concludable := fun h => absurd (hn.symm.trans h) Bool.false_ne_true
  traced := fun h => by
    rw [hp.2]
    exact ht.traced (hp.1.symm.trans h)

/-- The flags are untouched, and so is what they speak of. -/
theorem Truthful.of_core (ht : Truthful h) (hcore : core h' = core h) (hp : SameProof h h') :
    Truthful h' := by
  have hstate : h'.solver.state = h.solver.state := congrArg (·.solver.state) hcore
  refine ⟨by rw [hstate]; exact ht.settled, fun hc => ?_, fun hl => ?_, fun hl => ?_, fun hn => ?_,
    fun htr => ?_⟩
  · rw [hstate]
    exact ht.configuring ((congrArg (·.configuring) hcore).symm.trans hc)
  · rw [hstate]
    exact ht.satisfied ((congrArg (·.lastStatus) hcore).symm.trans hl)
  · rw [hstate]
    exact ht.unsatisfied ((congrArg (·.lastStatus) hcore).symm.trans hl)
  · rw [hstate]
    exact ht.concludable ((congrArg (·.concludable) hcore).symm.trans hn)
  · rw [hp.2]
    exact ht.traced (hp.1.symm.trans htr)

theorem startSearch_fileTracers (c : Cadical) : c.startSearch.fileTracers = c.fileTracers := by
  rw [Cadical.startSearch, Cadical.updateMoltenLiterals]
  split <;> rfl

/-- A search leaves the flags down or sets them from its answer. -/
theorem Truthful.finish (ht : Truthful h) {c : Cadical} (hp : c.fileTracers = h.solver.fileTracers)
    (pre : Bool) (ask : Oracle) : Truthful
      (finish (invalidate h) (ask c.startSearch) (Cadical.afterSearch pre ask c)) := by
  have hready := Ready.of_finish (h := invalidate h) rfl rfl rfl pre ask c
  have htracers : (Cadical.afterSearch pre ask c).fileTracers = h.solver.fileTracers := by
    rw [← hp]
    exact startSearch_fileTracers c
  have hlast : ∀ {b : Bool}, (b = true → False) → b = false := fun {b} hb => by
    cases b
    · rfl
    · exact (hb rfl).elim
  refine ⟨.inl (ready_iff.mp hready.ready).1, hready.configuring.mp, fun hl => ?_, fun hl => ?_,
    fun hn => ?_, fun htr => ?_⟩
  · exact (hready.satisfied (hlast fun hi => by
      rw [(hready.interrupted hi).2.1] at hl
      exact absurd hl (by decide))).mp hl
  · exact (hready.unsatisfied (hlast fun hi => by
      rw [(hready.interrupted hi).2.1] at hl
      exact absurd hl (by decide))).mp hl
  · exact (hready.concludable (hlast fun hi => by
      rw [(hready.interrupted hi).2.2] at hn
      cases hn)).mp hn
  · change (Cadical.afterSearch pre ask c).fileTracers.getLast?.any _ = true
    rw [htracers]
    exact ht.traced htr

/-- A call that CaDiCaL refuses at once has lowered the flags. -/
theorem Truthful.invalidated (ht : Truthful h) : Truthful (invalidate h) :=
  ht.lowered rfl rfl rfl ht.settled ⟨rfl, rfl⟩

/-- A search whose result was wrong leaves the flags down. -/
theorem Truthful.unfinished (ht : Truthful h) {c : Cadical} (hs : c.state.valid = true ∨ c.state = .solving)
    (hp : c.fileTracers = h.solver.fileTracers) : Truthful (unfinished (invalidate h) c) :=
  ht.lowered rfl rfl rfl hs ⟨rfl, hp⟩

theorem foldl_fileTracers {f : Cadical → ℤ → Cadical}
    (hf : ∀ c l, (f c l).fileTracers = c.fileTracers) (p : List ℤ) (c : Cadical) :
    (p.foldl f c).fileTracers = c.fileTracers := by
  induction p generalizing c with
  | nil => rfl
  | cons l p ih => exact (ih (f c l)).trans (hf c l)

theorem truthful_addClause (ht : Truthful h) (x : SEXP) :
    Truthful ((zusatAddClause x).run h).2 := by
  cases hx : litsOf x with
  | none =>
    obtain ⟨t, hrun⟩ := run_refused "clause must be an integer vector" hx _ h
    rw [zusatAddClause, hrun]
    exact ht
  | some p =>
    obtain ⟨rfl, hp⟩ := litsOf_eq_some hx
    rcases ht.settled with hv | hs
    swap
    · rw [run_zusatAddClause_solving hs hp]
      exact ht.invalidated
    have hchange := ((evolves_zusatAddClause (K := fun _ => True) (L := fun _ => True)
      (N := fun _ => True) (p := p) fun _ _ => trivial).snd h).1 (.inl hv)
    rcases run_zusatAddClause hv hp with ⟨-, hrun⟩ | ⟨q, l, r, e, -, -, -, -, -, hrun⟩
    · rw [hrun]
      exact ht.lowered rfl rfl rfl (.inl rfl) ⟨rfl, rfl⟩
    · rw [hrun] at hchange ⊢
      refine ht.lowered rfl rfl rfl hchange.settled.valid_or_solving ⟨rfl, ?_⟩
      have hq := foldl_fileTracers (f := Cadical.pushLit) (fun _ _ => rfl) q h.solver
      change (Cadical.stopAdd _ l).fileTracers = _
      rw [← hq, Cadical.stopAdd]
      split <;> rfl

theorem truthful_constrain (ht : Truthful h) (x : SEXP) :
    Truthful ((zusatConstrain x).run h).2 := by
  cases hx : litsOf x with
  | none =>
    obtain ⟨t, hrun⟩ := run_refused "constraint must be an integer vector" hx _ h
    rw [zusatConstrain, hrun]
    exact ht
  | some p =>
    obtain ⟨rfl, hp⟩ := litsOf_eq_some hx
    rcases ht.settled with hv | hs
    swap
    · rw [run_zusatConstrain_solving hs hp]
      exact ht.invalidated
    have hchange := ((evolves_zusatConstrain (K := fun _ => True) (L := fun _ => True)
      (N := fun _ => True) (p := p) fun _ _ => trivial).snd h).1 (.inl hv)
    rcases run_zusatConstrain hv hp with ⟨-, hrun⟩ | ⟨q, l, r, e, -, -, -, -, -, hrun⟩
    · rw [hrun]
      exact ht.lowered rfl rfl rfl (.inl rfl) ⟨rfl, rfl⟩
    · rw [hrun] at hchange ⊢
      refine ht.lowered rfl rfl rfl hchange.settled.valid_or_solving ⟨rfl, ?_⟩
      have hq := foldl_fileTracers (f := Cadical.pushConstraint) (fun _ _ => rfl) q h.solver
      change (Cadical.stopConstrain _ l).fileTracers = _
      rw [← hq, Cadical.stopConstrain]
      split <;> rfl

theorem truthful_solve (ht : Truthful h) (x : SEXP) (ask : Oracle) :
    Truthful ((zusatSolve x ask).run h).2 := by
  cases hx : litsOf x with
  | none =>
    obtain ⟨t, hrun⟩ := run_refused "assumptions must be an integer vector" hx _ h
    rw [zusatSolve, hrun]
    exact ht
  | some p =>
    obtain ⟨rfl, hp⟩ := litsOf_eq_some hx
    have hq := foldl_fileTracers (f := Cadical.pushAssumption) (fun _ _ => rfl)
    rcases ht.settled with hv | hs
    swap
    · obtain ⟨fn, h', rfl | rfl, hrun⟩ := run_zusatSolve_solving hs hp
      · rw [hrun]
        exact ht.invalidated
      · rw [hrun]
        exact ht.unfinished ht.settled rfl
    have hchange := ((evolves_zusatSolve (K := fun _ => True) (L := fun _ => True)
      (N := fun _ => True) (p := p) (fun _ _ => trivial) ask).snd h).1 (.inl hv)
    rcases run_zusatSolve hv hp ask with
      ⟨-, -, -, hrun⟩ | ⟨q, l, r, e, -, -, -, -, -, hrun⟩ | ⟨-, -, t, hrun⟩ | ⟨e, -, -, -, hrun⟩
    · rw [hrun]
      exact ht.finish (hq p h.solver) false ask
    · rw [hrun] at hchange ⊢
      refine ht.lowered rfl rfl rfl hchange.settled.valid_or_solving ⟨rfl, ?_⟩
      change (Cadical.stopAssume _ l).fileTracers = _
      rw [← hq q h.solver, Cadical.stopAssume]
      split <;> rfl
    · rw [hrun]
      exact ht.unfinished ht.settled rfl
    · rw [hrun] at hchange ⊢
      exact ht.unfinished hchange.settled.valid_or_solving ((startSearch_fileTracers _).trans (hq p h.solver))

theorem truthful_simplify (ht : Truthful h) (ask : Oracle) :
    Truthful ((zusatSimplify ask).run h).2 := by
  by_cases ha : h.solver.state = .adding
  · obtain ⟨t, hrun⟩ := run_zusatSimplify_adding ha ask
    rw [hrun]
    exact ht.unfinished ht.settled rfl
  · rcases ht.settled with hv | hs
    swap
    · rw [run_zusatSimplify_solving hs]
      exact ht.unfinished ht.settled rfl
    have hchange := ((evolves_zusatSimplify (K := fun _ => True) (L := fun _ => True)
      (N := fun _ => True) ask).snd h).1 (.inl hv)
    cases hcheck : Cadical.searchCheck true ask h.solver.limitRounds with
    | ok u =>
      rw [run_zusatSimplify hv ha hcheck]
      exact ht.finish (c := h.solver.limitRounds) rfl true ask
    | error e =>
      rw [run_zusatSimplify_failed hv ha hcheck] at hchange ⊢
      exact ht.unfinished hchange.settled.valid_or_solving (startSearch_fileTracers h.solver.limitRounds)

theorem truthful_reserve (ht : Truthful h) (n : SEXP) : Truthful ((zusatReserve n).run h).2 := by
  rcases zusatReserve_cases h n with ⟨m, hm, rfl⟩ | ⟨t, hrun⟩
  · rcases ht.settled with hv | hs
    · rw [run_zusatReserve hv hm, reserved]
      split
      · exact ht.lowered rfl rfl rfl (.inl rfl) ⟨rfl, rfl⟩
      · exact ht
    · rw [run_zusatReserve_solving hs hm]
      split
      · exact ht.invalidated
      · exact ht
  · rw [hrun]
    exact ht

/-! ## Options, limits and the proof -/

/-- The program leaves the proof and its tracer alone. -/
abbrev KeepsProof {α : Type} (m : HandleM α) : Prop := Respects SameProof m

theorem along_sameProof : Along SameProof (fun _ : RError => SameProof) :=
  .of_preorder (fun _ => ⟨rfl, rfl⟩) (fun h h' => ⟨h'.1.trans h.1, h'.2.trans h.2⟩)

theorem keepsProof_call {α : Type} {m : CadicalM α}
    (hm : Respects (fun c c' => c'.fileTracers = c.fileTracers) m) : KeepsProof (call m) :=
  Moves.within hm (fun _ _ h => ⟨rfl, h⟩) (fun _ _ _ h => ⟨rfl, h⟩)

theorem keepsProof_looks {α : Type} {m : HandleM α} (hm : Looks m) : KeepsProof m :=
  respects_of_snd fun s => by
    rw [hm.snd s]
    exact ⟨rfl, rfl⟩

theorem tracers_set (name : String) (value : ℤ) :
    Respects (fun c c' => c'.fileTracers = c.fileTracers) (Cadical.set name value) := by
  have law := along_view (ε := RError) Cadical.fileTracers
  refine law.bind (respects_of_snd fun c => congrArg _ ((looks_requireValidState _).snd c)) fun _ =>
    law.bind law.read fun _ => law.bind (law.doIf (law.require fun _ => rfl)) fun _ =>
      Moves.modify fun c => ?_
  rw [Cadical.setOpt]
  split <;> rfl

theorem tracers_limit (name : String) (value : ℤ) :
    Respects (fun c c' => c'.fileTracers = c.fileTracers) (Cadical.limit name value) := by
  have law := along_view (ε := RError) Cadical.fileTracers
  refine law.bind (respects_of_snd fun c => congrArg _ ((looks_requireValidState _).snd c)) fun _ =>
    Moves.modify fun c => ?_
  split <;> rfl

theorem truthful_setOption (ht : Truthful h) (name value : SEXP) :
    Truthful ((zusatSetOption name value).run h).2 := by
  have law := along_sameProof
  have hproof : KeepsProof (zusatSetOption name value) :=
    law.bind (keepsProof_looks (looks_ofExcept _)) fun _ =>
      law.bind (keepsProof_looks (looks_ofExcept _)) fun _ =>
        law.bind (keepsProof_looks (looks_require _ _)) fun _ =>
          law.bind (keepsProof_call (tracers_set _ _)) fun _ =>
            keepsProof_looks (looks_call (looks_get _))
  exact ht.of_core ((quiet_zusatSetOption name value).snd h) (hproof.snd h)

theorem truthful_limit (ht : Truthful h) (name value : SEXP) :
    Truthful ((zusatLimit name value).run h).2 := by
  have law := along_sameProof
  have hproof : KeepsProof (zusatLimit name value) :=
    law.bind (keepsProof_looks (looks_ofExcept _)) fun _ =>
      law.bind (keepsProof_looks (looks_ofExcept _)) fun _ => keepsProof_call (tracers_limit _ _)
  exact ht.of_core ((quiet_zusatLimit name value).snd h) (hproof.snd h)

/-- The handle while CaDiCaL is told to trace into a file just opened. -/
def opening (h : Handle) : Handle :=
  { h with proof := some h.opened, proofTraced := false, opened := h.opened + 1 }

/-- The solver with one more tracer. -/
def tracing (c : Cadical) (file : ℕ) : Cadical :=
  { c with fileTracers := c.fileTracers ++ [⟨c.tracerKind, c.opts "binary" ≠ 0, file, false⟩] }

theorem run_traceProof {c : Cadical} (hc : c.state = .configuring) (file : ℕ) (name : String) :
    (Cadical.traceProof file name).run c = (.ok (), tracing c file) := by
  have hv : c.state.valid = true := by rw [hc]; rfl
  rw [Cadical.traceProof, run_bind, Cadical.run_requireValidState hv, andThen_ok, run_bind, run_read,
    andThen_ok, run_bind, hc]
  rfl

/-- Tracing starts, or the package refuses. -/
theorem zusatTraceProof_cases (ht : Truthful h) (path : SEXP) (canOpen : Bool) :
    (∃ t, (zusatTraceProof path canOpen).run h = (.error (.stop t), h)) ∨
      (zusatTraceProof path canOpen).run h = (.ok (),
        { (opening h).withSolver (tracing h.solver h.opened) with proofTraced := true }) := by
  unfold zusatTraceProof
  rw [run_bind]
  split
  · rw [run_ofExcept_ok, andThen_ok, run_bind, run_read, andThen_ok, run_bind]
    cases h.proof.isNone with
    | false => exact .inl ⟨_, rfl⟩
    | true =>
      rw [run_require_true, andThen_ok, run_bind]
      cases hc : h.configuring with
      | false => exact .inl ⟨_, rfl⟩
      | true =>
        rw [run_require_true, andThen_ok, run_bind]
        cases canOpen with
        | false => exact .inl ⟨_, rfl⟩
        | true =>
          have htrace : ∀ name, (call (Cadical.traceProof h.opened name)).run (opening h) =
              (.ok (), (opening h).withSolver (tracing h.solver h.opened)) := fun name =>
            run_call (run_traceProof (ht.configuring hc) h.opened name)
          rw [run_require_true, andThen_ok, run_bind, run_modify, andThen_ok, run_bind]
          change _ ∨ andThen ((call (Cadical.traceProof h.opened _)).run (opening h)) _ = _
          rw [htrace]
          exact .inr rfl
  · exact .inl ⟨_, rfl⟩

theorem truthful_traceProof (ht : Truthful h) (path : SEXP) (canOpen : Bool) :
    Truthful ((zusatTraceProof path canOpen).run h).2 := by
  rcases zusatTraceProof_cases ht path canOpen with ⟨t, hrun⟩ | hrun
  · rw [hrun]
    exact ht
  · rw [hrun]
    refine ⟨ht.settled, ht.configuring, ht.satisfied, ht.unsatisfied, ht.concludable, fun _ => ?_⟩
    change (_ ++ [_]).getLast?.any _ = true
    rw [List.getLast?_append, List.getLast?_singleton, Option.some_or]
    rfl

/-- The solver once its tracers are closed. -/
def untraced (c : Cadical) : Cadical :=
  { c with fileTracers := c.fileTracers.map fun t => { t with closed := true } }

theorem run_closeProofTrace {c : Cadical} (hv : c.state.valid = true)
    (hopen : c.fileTracers.getLast?.any (fun t => !t.closed) = true) :
    Cadical.closeProofTrace.run c = (.ok (), untraced c) := by
  have hne : c.fileTracers.isEmpty = false := by
    cases hc : c.fileTracers with
    | nil =>
      rw [hc] at hopen
      cases hopen
    | cons t ts => rfl
  have hall : c.fileTracers.getLast?.all (fun t => !t.closed) = true := by
    cases hl : c.fileTracers.getLast? with
    | none => rfl
    | some t => rwa [hl] at hopen
  rw [Cadical.closeProofTrace, run_bind, Cadical.run_requireValidState hv, andThen_ok, run_bind,
    run_read, andThen_ok, run_bind, hne, Bool.not_false, run_require_true, andThen_ok, run_bind, hall,
    run_require_true, andThen_ok]
  rfl

/-- The proof is closed, the package refuses, or CaDiCaL does after a search it was left in. -/
theorem zusatCloseProof_cases (ht : Truthful h) :
    (∃ t, zusatCloseProof.run h = (.error (.stop t), h)) ∨
      (∃ c, zusatCloseProof.run h = (.ok (), { h with
          solver := c, proof := none, proofTraced := false,
          fclosed := h.fclosed ++ h.proof.toList }) ∧ c.state = h.solver.state) ∨
      (h.solver.state = .solving ∧ h.proof.isSome = true ∧ h.proofTraced = true ∧
        zusatCloseProof.run h = (.error (Cadical.invalidState "close_proof_trace"), h)) := by
  rw [zusatCloseProof, run_bind, run_read, andThen_ok, run_bind]
  cases h.proof.isSome with
  | false => exact .inl ⟨_, rfl⟩
  | true =>
    rw [run_require_true, andThen_ok, run_bind]
    cases htr : h.proofTraced with
    | false => exact .inr (.inl ⟨h.solver, rfl, rfl⟩)
    | true =>
      rcases ht.settled with hv | hs
      · have hclose : (call Cadical.closeProofTrace).run h = (.ok (), h.withSolver (untraced h.solver)) :=
          run_call (run_closeProofTrace hv (ht.traced htr))
        rw [run_doIf_true, hclose]
        exact .inr (.inl ⟨untraced h.solver, rfl, rfl⟩)
      · have hclose : (call Cadical.closeProofTrace).run h =
            (.error (Cadical.invalidState "close_proof_trace"), h) :=
          run_call (Cadical.run_closeProofTrace_solving hs)
        rw [run_doIf_true, hclose]
        exact .inr (.inr ⟨hs, rfl, rfl, rfl⟩)

theorem truthful_closeProof (ht : Truthful h) : Truthful (zusatCloseProof.run h).2 := by
  rcases zusatCloseProof_cases ht with ⟨t, hrun⟩ | ⟨c, hrun, hc⟩ | ⟨-, -, -, hrun⟩
  · rw [hrun]
    exact ht
  swap
  · rw [hrun]
    exact ht
  · rw [hrun]
    exact ⟨hc ▸ ht.settled, fun h => hc ▸ ht.configuring h, fun h => hc ▸ ht.satisfied h,
      fun h => hc ▸ ht.unsatisfied h, fun h => hc ▸ ht.concludable h, fun h => nomatch h⟩

/-- Every entry call keeps the flags truthful, however it ends. -/
theorem Truthful.step (ht : Truthful h) (e : EntryCall) : Truthful (entryStep h e).2 := by
  have hlooks : ∀ {α : Type} {m : HandleM α}, Looks m → Truthful (m.run h).2 := fun hm => by
    rw [hm.snd h]
    exact ht
  rw [entryStep]
  cases e with
  | addClause x => rw [entry, run_bind_pure]; exact truthful_addClause ht x
  | solve x ask => rw [entry, run_bind_pure]; exact truthful_solve ht x ask
  | simplify ask => rw [entry, run_bind_pure]; exact truthful_simplify ht ask
  | constrain x => rw [entry, run_bind_pure]; exact truthful_constrain ht x
  | reserve n => rw [entry, run_bind_pure]; exact truthful_reserve ht n
  | limit name value => rw [entry, run_bind_pure]; exact truthful_limit ht name value
  | setOption name value => rw [entry, run_bind_pure]; exact truthful_setOption ht name value
  | fixed x root => rw [entry, run_bind_pure]; exact hlooks (looks_zusatFixed x root)
  | value x => rw [entry, run_bind_pure]; exact hlooks (looks_zusatValue x)
  | failed x => rw [entry, run_bind_pure]; exact hlooks (looks_zusatFailed x)
  | constraintFailed => rw [entry, run_bind_pure]; exact hlooks looks_zusatConstraintFailed
  | conclude => rw [entry, run_bind_pure]; exact hlooks looks_zusatConclude
  | traceProof path canOpen => rw [entry, run_bind_pure]; exact truthful_traceProof ht path canOpen
  | closeProof => rw [entry, run_bind_pure]; exact truthful_closeProof ht

end Step

/-! ## Without option `check` -/

/-- The options an entry call may set. -/
def setsOption : EntryCall → String → Prop
  | .setOption name _, n => name = .str [some n]
  | _, _ => False

theorem evolves_entry (e : EntryCall) :
    Respects (Evolves (fun _ => True) (fun _ => True) (setsOption e)) (entry e) := by
  have law := along_evolves (fun _ => True) (fun _ => True) (setsOption e)
  have hlits : ∀ {text : String} {lits : SEXP} {α : Type} {f : List ℤ → HandleM α},
      (∀ p, lits = .int p → Respects (Evolves (fun _ => True) (fun _ => True) (setsOption e))
        (ofExcept (asInts text (.int p)) >>= f)) →
      Respects (Evolves (fun _ => True) (fun _ => True) (setsOption e)) (ofExcept (asInts text lits) >>= f) := by
    intro text lits α f hf
    cases lits with
    | int p => exact hf p rfl
    | str | other => exact Moves.bindExcept (fun _ _ => evolves_refl) (fun _ h => by cases h)
  cases e with
  | addClause lits =>
    refine law.bind (hlits fun p _ => evolves_zusatAddClause fun _ _ => trivial) fun _ => law.pure _
  | solve assumptions ask =>
    refine law.bind (hlits fun p _ => evolves_zusatSolve (fun _ _ => trivial) ask) fun _ => law.pure _
  | simplify ask => exact law.bind (evolves_zusatSimplify ask) fun _ => law.pure _
  | constrain lits =>
    refine law.bind (hlits fun p _ => evolves_zusatConstrain fun _ _ => trivial) fun _ => law.pure _
  | reserve n => exact law.bind (evolves_zusatReserve n) fun _ => law.pure _
  | limit name value => exact law.bind (evolves_zusatLimit name value) fun _ => law.pure _
  | setOption name value =>
    refine law.bind ?_ fun _ => law.pure _
    cases hname : optionName name with
    | error e =>
      rw [zusatSetOption, hname]
      exact Moves.bindExcept (fun _ _ => evolves_refl) (fun _ h => by cases h)
    | ok o =>
      rw [optionName.eq_def] at hname
      split at hname
      · next nm =>
        have hsets : setsOption (.setOption (.str [some nm]) value) nm := rfl
        exact evolves_zusatSetOption hsets value
      · cases hname
  | fixed lits root => exact law.bind (evolves_looks (looks_zusatFixed lits root)) fun _ => law.pure _
  | value vars => exact law.bind (evolves_looks (looks_zusatValue vars)) fun _ => law.pure _
  | failed assumptions => exact law.bind (evolves_looks (looks_zusatFailed assumptions)) fun _ => law.pure _
  | constraintFailed => exact law.bind (evolves_looks looks_zusatConstraintFailed) fun _ => law.pure _
  | conclude => exact law.bind (evolves_looks looks_zusatConclude) fun _ => law.pure _
  | traceProof path canOpen => exact law.bind (evolves_zusatTraceProof path canOpen) fun _ => law.pure _
  | closeProof => exact law.bind evolves_zusatCloseProof fun _ => law.pure _

/-- A solver left in a search stays as it is. -/
def Stands (h h' : Handle) : Prop := Cadical.Stands h.solver h'.solver

theorem stands_entry (e : EntryCall) : Respects Stands (entry e) :=
  respects_of_snd fun h => ((evolves_entry e).snd h).2

/-- A run that leaves the option `check` alone never leaves a search in the middle. -/
theorem valid_run {es : List EntryCall} (hes : ∀ e ∈ es, ¬setsOption e "check") :
    (run entryStep new es).solver.state.valid = true := by
  have hnew : new.solver.state.valid = true ∧ new.solver.opts "check" = 0 := ⟨rfl, by decide⟩
  refine (run_invariant entryStep (P := fun _ e _ => ¬setsOption e "check")
    (I := fun h => h.solver.state.valid = true ∧ h.solver.opts "check" = 0) (fun h e hh he => ?_) hnew
    (every_of_forall entryStep (fun e he _ _ => hes e he) new)).1
  have hchange := ((evolves_entry e).snd h).1 (.inl hh.1)
  have hcheck := (hchange.opts _ he).trans hh.2
  exact ⟨hchange.settled.valid hcheck, hcheck⟩

end Handle
end Zusat
