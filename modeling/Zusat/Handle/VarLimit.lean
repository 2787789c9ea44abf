import Zusat.Handle.Flags

/-! # The variables of the solver stay below the limit

Every way of naming a variable is checked against `zusatMaxVar` in `zusat.c`. Only a search can go past
it, by extension variables, and only with the option `factor`, which can be set only while the solver is
being configured. -/

namespace Zusat
open Foundations Foundations.Prog
set_option autoImplicit false

namespace Cadical

/-- The variables are below the limit while `factor` is off, and while it may still be set. -/
structure Limited (c : Cadical) : Prop where
  configuring : c.state = .configuring → c.maxVar ≤ zusatMaxVar
  factorOff : c.opts "factor" = 0 → c.maxVar ≤ zusatMaxVar

theorem limited_init : Limited init := ⟨fun _ => by decide, fun _ => by decide⟩

/-- A step that adds no variable beyond the limit, leaves `factor` alone and does not go back. -/
theorem Limited.grow {c c' : Cadical} (h : Limited c) (hstate : c'.state = .configuring → c.state = .configuring)
    (hopts : c'.opts = c.opts) (hmax : c'.maxVar ≤ max c.maxVar zusatMaxVar) : Limited c' := by
  refine ⟨fun hc => ?_, fun hf => ?_⟩
  · have hle := h.configuring (hstate hc)
    omega
  · rw [hopts] at hf
    have hle := h.factorOff hf
    omega

abbrev StaysLimited {α : Type} (m : CadicalM α) : Prop := Respects (fun c c' => Limited c → Limited c') m

theorem along_limited : Along (fun c c' => Limited c → Limited c')
    (fun (_ : RError) c c' => Limited c → Limited c') := .of_preorder (fun _ => id) (fun h h' => h' ∘ h)

theorem limited_looks {α : Type} {m : CadicalM α} (hm : Looks m) : StaysLimited m :=
  respects_of_snd fun c => by
    rw [hm.snd c]
    exact id

theorem limited_modify {f : Cadical → Cadical} (hstate : ∀ c, (f c).state = .configuring → c.state = .configuring)
    (hopts : ∀ c, (f c).opts = c.opts) (hmax : ∀ c, (f c).maxVar ≤ max c.maxVar zusatMaxVar) :
    StaysLimited (modify f) := Moves.modify fun c h => h.grow (hstate c) (hopts c) (hmax c)

theorem limited_transition : StaysLimited (modify transitionToSteadyState) :=
  limited_modify nofun (fun _ => rfl) fun _ => le_max_left _ _

theorem limited_internalize {l : ℤ} (hl : l.natAbs ≤ zusatMaxVar) : StaysLimited (internalize l) := by
  have hinit : StaysLimited (modify (initVars l.natAbs)) :=
    limited_modify (fun _ h => h) (fun _ => rfl) fun c => max_le_max le_rfl hl
  exact along_limited.doIf (along_limited.bind hinit fun _ => along_limited.bind along_limited.read fun _ =>
    along_limited.doIf (along_limited.require fun _ => id))

/-- A step on the fields that do not matter. -/
theorem limited_aside {f : Cadical → Cadical} (hstate : ∀ c, (f c).state = c.state)
    (hopts : ∀ c, (f c).opts = c.opts) (hmax : ∀ c, (f c).maxVar = c.maxVar) : StaysLimited (modify f) :=
  limited_modify (fun c h => (hstate c).symm.trans h) hopts fun c => (hmax c).le.trans (le_max_left _ _)

theorem limited_saveOriginal (l : ℤ) : StaysLimited (modify (saveOriginal l)) :=
  limited_aside (fun c => by rw [saveOriginal_eq]) (fun c => by rw [saveOriginal_eq]) fun c => by
    rw [saveOriginal_eq]

theorem limited_enterAfter (l : ℤ) (other : Cadical → Bool) :
    StaysLimited (modify fun c => enterAfter l (other c) c) := by
  refine limited_modify (fun c h => ?_) (fun _ => rfl) fun _ => le_max_left _ _
  rw [enterAfter] at h
  split_ifs at h
  exact h

theorem limited_add {l : ℤ} (hl : l.natAbs ≤ zusatMaxVar) : StaysLimited (add l) := by
  have law := along_limited
  have hdeclared : StaysLimited (requireDeclared l) :=
    law.bind law.read fun _ => law.bind (law.doIf (law.require fun _ => id)) fun _ =>
      law.doIf (law.require fun _ => id)
  have hexternal : StaysLimited (externalAdd l) := by
    refine law.bind law.read fun _ => law.bind (law.doIf (law.require fun _ => id)) fun _ =>
      law.bind (limited_saveOriginal l) fun _ => law.bind (limited_internalize hl) fun _ => ?_
    split
    · exact limited_aside (fun _ => rfl) (fun _ => rfl) fun _ => rfl
    · exact limited_aside (fun _ => rfl) (fun _ => rfl) fun _ => rfl
  exact law.bind (limited_looks (looks_requireValidState _)) fun _ => law.bind (law.doIf hdeclared) fun _ =>
    law.bind (law.doIf (limited_looks (looks_requireValidLit _ _))) fun _ =>
      law.bind limited_transition fun _ => law.bind hexternal fun _ =>
        law.bind (limited_aside (fun _ => rfl) (fun _ => rfl) fun _ => rfl) fun _ =>
          limited_enterAfter l _

theorem limited_constrain {l : ℤ} (hl : l.natAbs ≤ zusatMaxVar) : StaysLimited (constrain l) := by
  have law := along_limited
  have hexternal : StaysLimited (externalConstrain l) :=
    law.bind (limited_aside (fun _ => rfl) (fun _ => rfl) fun _ => rfl) fun _ =>
      law.bind (limited_internalize hl) fun _ =>
        limited_aside (fun _ => rfl) (fun _ => rfl) fun _ => rfl
  exact law.bind (limited_looks (looks_requireValidState _)) fun _ =>
    law.bind (law.doIf (limited_looks (looks_requireValidLit _ _))) fun _ =>
      law.bind limited_transition fun _ => law.bind hexternal fun _ =>
        law.bind (limited_aside (fun _ => rfl) (fun _ => rfl) fun _ => rfl) fun _ =>
          limited_enterAfter l _

theorem limited_assume {l : ℤ} (hl : l.natAbs ≤ zusatMaxVar) : StaysLimited (assume l) := by
  have law := along_limited
  exact law.bind (limited_looks (looks_requireValidState _)) fun _ =>
    law.bind (limited_looks (looks_requireValidLit _ _)) fun _ => law.bind limited_transition fun _ =>
      law.bind (limited_aside (fun _ => rfl) (fun _ => rfl) fun _ => rfl) fun _ => limited_internalize hl

/-- A search without `factor` adds no variable, and it never ends in the first state. -/
theorem limited_callExternalSolve (pre : Bool) (ask : Oracle) :
    StaysLimited (callExternalSolve pre ask) := by
  refine respects_of_snd fun c h => ?_
  have hstart : c.startSearch.opts = c.opts ∧ c.startSearch.maxVar = c.maxVar := by
    rw [startSearch, updateMoltenLiterals]
    split <;> exact ⟨rfl, rfl⟩
  have hmax : c.startSearch.opts "factor" = 0 →
      c.startSearch.maxVar + c.startSearch.extensionOf (ask c.startSearch) ≤ zusatMaxVar := by
    intro hf
    rw [extensionOf_eq_zero hf, Nat.add_zero, hstart.2]
    rw [hstart.1] at hf
    exact h.factorOff hf
  cases hcheck : searchCheck pre ask c with
  | ok u =>
    rw [run_callExternalSolve hcheck]
    refine ⟨fun hc => ?_, hmax⟩
    change (ask c.startSearch).res.state = .configuring at hc
    cases hr : (ask c.startSearch).res <;> rw [hr] at hc <;> cases hc
  | error e =>
    rw [run_callExternalSolve_failed hcheck]
    refine ⟨fun hc => ?_, hmax⟩
    have hs : (recordedSearch pre ask c).state = .solving := startSearch_state
    rw [hs] at hc
    cases hc

theorem limited_ready (fn : String) : StaysLimited (requireReadyState fn) :=
  along_limited.bind (limited_looks (looks_requireValidState _)) fun _ =>
    along_limited.bind along_limited.read fun _ => along_limited.require fun _ => id

/-- `factor` can be set only in the first state, in which the limit holds in any case. -/
theorem limited_set (name : String) (value : ℤ) : StaysLimited (set name value) := by
  refine along_limited.bind (limited_looks (looks_requireValidState _)) fun _ =>
    respects_of_snd fun c h => ?_
  have hmax : (setOpt name value c).maxVar = c.maxVar ∧ (setOpt name value c).state = c.state := by
    rw [setOpt]
    split <;> exact ⟨rfl, rfl⟩
  rw [run_bind, run_read, andThen_ok, run_bind]
  cases hrep : reportingOptions.contains name with
  | true =>
    have hne : "factor" ≠ name := by
      rintro rfl
      exact absurd hrep (by decide)
    have hopts : (setOpt name value c).opts "factor" = c.opts "factor" := by
      rw [setOpt]
      split
      · rfl
      · exact Function.update_of_ne hne _ _
    rw [Bool.not_true, run_doIf_false, andThen_ok, run_modify]
    refine ⟨fun hc => ?_, fun hf => ?_⟩
    · exact hmax.1.le.trans (h.configuring (hmax.2.symm.trans hc))
    · exact hmax.1.le.trans (h.factorOff (hopts.symm.trans hf))
  | false =>
    rw [Bool.not_false, run_doIf_true]
    cases hc : c.state == .configuring with
    | false => exact h
    | true =>
      have hle := h.configuring (eq_of_beq hc)
      rw [run_require_true, andThen_ok, run_modify]
      exact ⟨fun _ => hmax.1.le.trans hle, fun _ => hmax.1.le.trans hle⟩

theorem limited_limit (name : String) (value : ℤ) : StaysLimited (limit name value) := by
  refine along_limited.bind (limited_looks (looks_requireValidState _)) fun _ => Moves.modify fun c h => ?_
  split
  · exact h.grow id rfl (le_max_left _ _)
  · exact h

end Cadical

namespace Handle
open Cadical (Limited StaysLimited looks_require looks_get)

abbrev KeepsLimit {α : Type} (m : HandleM α) : Prop :=
  Respects (fun h h' => Limited h.solver → Limited h'.solver) m

theorem along_limit : Along (fun h h' : Handle => Limited h.solver → Limited h'.solver)
    (fun (_ : RError) h h' => Limited h.solver → Limited h'.solver) :=
  .of_preorder (fun _ => id) (fun h h' => h' ∘ h)

theorem limit_call {α : Type} {m : CadicalM α} (hm : StaysLimited m) : KeepsLimit (call m) :=
  Moves.within hm (fun _ _ h => h) (fun _ _ _ h => h)

theorem limit_looks {α : Type} {m : HandleM α} (hm : Cadical.Looks m) : KeepsLimit m :=
  respects_of_snd fun h => by
    rw [hm.snd h]
    exact id

theorem limit_view {f : Handle → Handle} (hf : ∀ h, (f h).solver = h.solver) : KeepsLimit (modify f) :=
  Moves.modify fun h hl => by
    rw [hf h]
    exact hl

/-- What the literals are checked for is what keeps them below the limit. -/
theorem limit_literals {α : Type} {p : List ℤ} {m : HandleM α}
    (hm : (∀ l ∈ p, l.natAbs ≤ zusatMaxVar) → KeepsLimit m) :
    KeepsLimit (ofExcept (checkLits p) >>= fun _ => m) := by
  refine Moves.bindExcept (fun _ _ _ => id) fun _ hok => hm fun l hl => ?_
  rcases checkLits_cases p with ⟨-, hvalid⟩ | ⟨t, herr⟩
  · exact (hvalid l hl).2
  · rw [herr] at hok
    cases hok

theorem limit_search (what : String) {m : CadicalM Answer} (hm : StaysLimited m) :
    KeepsLimit (search what m) := by
  have law := along_limit
  have hset : KeepsLimit (call Cadical.setTerminate) :=
    limit_looks (looks_call (Cadical.looks_requireValidState _))
  exact law.bind (limit_view fun _ => rfl) fun _ => law.bind hset fun _ => law.bind (limit_call hm) fun _ =>
    law.bind (limit_view fun _ => rfl) fun _ => law.bind hset fun _ =>
      law.bind (limit_view fun _ => rfl) fun _ => law.bind (law.require fun _ => id) fun _ =>
        law.bind (limit_view fun _ => rfl) fun _ => law.pure _

theorem limited_reserve {h : Handle} (hs : h.solver.state.valid = true ∨ h.solver.state = .solving)
    (hl : Limited h.solver) (n : SEXP) : Limited ((zusatReserve n).run h).2.solver := by
  rcases zusatReserve_cases h n with ⟨m, hm, rfl⟩ | ⟨t, hrun⟩
  · rcases hs with hv | hsolving
    swap
    · rw [run_zusatReserve_solving hsolving hm]
      split <;> exact hl
    rw [run_zusatReserve hv hm]
    have hmax : (reserved h m).solver.maxVar ≤ max h.solver.maxVar zusatMaxVar := by
      rw [reserved_maxVar]
      omega
    refine hl.grow (fun hc => ?_) ?_ hmax
    · change (reserved h m).solver.state = .configuring at hc
      rw [reserved] at hc
      split at hc
      · cases hc
      · exact hc
    · change (reserved h m).solver.opts = _
      rw [reserved]
      split <;> rfl
  · rw [hrun]
    exact hl

theorem keepsLimit_entry (e : EntryCall) (hreserve : ∀ n, e ≠ .reserve n) : KeepsLimit (entry e) := by
  have law := along_limit
  have hints : ∀ {α : Type} (x : Except RError α), KeepsLimit (ofExcept x) := fun x =>
    limit_looks (looks_ofExcept x)
  have hzero : (0 : ℤ).natAbs ≤ zusatMaxVar := Nat.zero_le _
  cases e with
  | addClause x =>
    exact law.bind (law.bind (hints _) fun _ => limit_literals fun hp =>
      law.bind (limit_view fun _ => rfl) fun _ =>
        law.bind (law.each fun l hm => limit_call (Cadical.limited_add (hp l hm))) fun _ =>
          limit_call (Cadical.limited_add hzero)) fun _ => law.pure _
  | solve x ask =>
    have hsolve : StaysLimited (Cadical.solve ask) :=
      Cadical.along_limited.bind (Cadical.limited_ready _) fun _ =>
        Cadical.limited_callExternalSolve false ask
    exact law.bind (law.bind (hints _) fun _ => limit_literals fun hp =>
      law.bind (limit_view fun _ => rfl) fun _ =>
        law.bind (law.each fun l hm => limit_call (Cadical.limited_assume (hp l hm))) fun _ =>
          limit_search _ hsolve) fun _ => law.pure _
  | simplify ask =>
    have hsolve : StaysLimited (Cadical.simplify ask) :=
      Cadical.along_limited.bind (Cadical.limited_ready _) fun _ => Cadical.along_limited.bind
        (Cadical.limited_aside (fun _ => rfl) (fun _ => rfl) fun _ => rfl) fun _ =>
          Cadical.limited_callExternalSolve true ask
    exact law.bind (law.bind (limit_view fun _ => rfl) fun _ => limit_search _ hsolve) fun _ => law.pure _
  | constrain x =>
    exact law.bind (law.bind (hints _) fun _ => limit_literals fun hp =>
      law.bind (limit_view fun _ => rfl) fun _ =>
        law.bind (law.each fun l hm => limit_call (Cadical.limited_constrain (hp l hm))) fun _ =>
          law.bind (limit_call (Cadical.limited_constrain hzero)) fun _ => limit_view fun _ => rfl)
      fun _ => law.pure _
  | reserve n => exact absurd rfl (hreserve n)
  | limit name value =>
    exact law.bind (law.bind (hints _) fun _ => law.bind (hints _) fun _ =>
      limit_call (Cadical.limited_limit _ _)) fun _ => law.pure _
  | setOption name value =>
    exact law.bind (law.bind (hints _) fun _ => law.bind (hints _) fun _ =>
      law.bind (law.require fun _ => id) fun _ => law.bind (limit_call (Cadical.limited_set _ _)) fun _ =>
        limit_looks (looks_call (looks_get _))) fun _ => law.pure _
  | fixed x root => exact law.bind (limit_looks (looks_zusatFixed x root)) fun _ => law.pure _
  | value x => exact law.bind (limit_looks (looks_zusatValue x)) fun _ => law.pure _
  | failed x => exact law.bind (limit_looks (looks_zusatFailed x)) fun _ => law.pure _
  | constraintFailed => exact law.bind (limit_looks looks_zusatConstraintFailed) fun _ => law.pure _
  | conclude => exact law.bind (limit_looks looks_zusatConclude) fun _ => law.pure _
  | traceProof path canOpen =>
    have htrace : ∀ file name, StaysLimited (Cadical.traceProof file name) := fun file name =>
      Cadical.along_limited.bind (Cadical.limited_looks (Cadical.looks_requireValidState _)) fun _ =>
        Cadical.along_limited.bind Cadical.along_limited.read fun _ =>
          Cadical.along_limited.bind (Cadical.along_limited.require fun _ => id) fun _ =>
            Cadical.limited_aside (fun _ => rfl) (fun _ => rfl) fun _ => rfl
    exact law.bind (law.bind (hints _) fun _ => law.bind law.read fun _ =>
      law.bind (law.require fun _ => id) fun _ => law.bind (law.require fun _ => id) fun _ =>
        law.bind (law.require fun _ => id) fun _ => law.bind (limit_view fun _ => rfl) fun _ =>
          law.bind (limit_call (htrace _ _)) fun _ => limit_view fun _ => rfl) fun _ => law.pure _
  | closeProof =>
    have hclose : StaysLimited Cadical.closeProofTrace :=
      Cadical.along_limited.bind (Cadical.limited_looks (Cadical.looks_requireValidState _)) fun _ =>
        Cadical.along_limited.bind Cadical.along_limited.read fun _ =>
          Cadical.along_limited.bind (Cadical.along_limited.require fun _ => id) fun _ =>
            Cadical.along_limited.bind (Cadical.along_limited.require fun _ => id) fun _ =>
              Cadical.limited_aside (fun _ => rfl) (fun _ => rfl) fun _ => rfl
    exact law.bind (law.bind law.read fun _ => law.bind (law.require fun _ => id) fun _ =>
      law.bind (law.doIf (limit_call hclose)) fun _ => limit_view fun _ => rfl) fun _ => law.pure _

theorem limited_step {h : Handle} (hs : h.solver.state.valid = true ∨ h.solver.state = .solving)
    (hl : Limited h.solver) (e : EntryCall) : Limited (entryStep h e).2.solver := by
  by_cases hreserve : ∃ n, e = .reserve n
  · obtain ⟨n, rfl⟩ := hreserve
    rw [entryStep, entry, run_bind_pure]
    exact limited_reserve hs hl n
  · exact (keepsLimit_entry e fun n he => hreserve ⟨n, he⟩).snd h hl

end Handle
end Zusat
