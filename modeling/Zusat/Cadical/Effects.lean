import Zusat.Model.Cadical

/-! # What each CaDiCaL call does, in closed form

For a literal there are three outcomes: a `REQUIRE` refuses it and nothing changes, the frozen
check stops it after the solver has left its state, or it is taken. `addable` and `usable` are the
`REQUIRE`s of `add` and of the other literal-taking functions; `molten` is the frozen check. Later
modules cite these equations and do not unfold the API functions. -/

namespace Zusat
open Foundations Foundations.Prog
set_option autoImplicit false

theorem SolveRes.state_valid (r : SolveRes) : r.state.valid = true := by cases r <;> rfl


namespace Cadical

/-- In a valid state, or left in a search whose result failed a check. -/
def Settled (c : Cadical) : Prop := c.state.valid = true ∨ c.state = .solving ∧ c.opts "check" ≠ 0

theorem Settled.valid {c : Cadical} (h : c.Settled) (hoff : c.opts "check" = 0) : c.state.valid = true :=
  h.resolve_right fun hs => hs.2 hoff

theorem Settled.valid_or_solving {c : Cadical} (h : c.Settled) :
    c.state.valid = true ∨ c.state = .solving := h.imp_right And.left

/-! ## The two checks on a literal -/

/-- `add` insists on declared variables under the current options. -/
def needsDeclared (c : Cadical) : Bool :=
  (c.opts "factor" != 0 && c.opts "factorcheck" == 1) || c.opts "factorcheck" == 2

/-- The `REQUIRE_VALID_LIT` of a literal. -/
def usable (c : Cadical) (l : ℤ) : Bool := l != 0 && l != naInteger && c.isValidInput l

/-- All `REQUIRE`s `add` makes of a literal. -/
def addable (c : Cadical) (l : ℤ) : Bool :=
  (!c.needsDeclared || decide (l.natAbs ≤ c.maxVar)) && c.usable l

/-- The frozen check of `internalize` would stop the literal. -/
def molten (c : Cadical) (l : ℤ) : Bool := c.opts "checkfrozen" != 0 && c.moltentab l.natAbs

theorem isValidInput_eq (c : Cadical) (l : ℤ) : c.isValidInput l = !c.ervars l.natAbs := by
  rw [isValidInput]
  cases he : c.ervars l.natAbs with
  | false => simp
  | true =>
    have := c.ervars_le _ he
    simp only [Bool.not_true, Bool.or_false, decide_eq_false_iff_not]
    omega

theorem usable_ne_zero {c : Cadical} {l : ℤ} (h : c.usable l = true) : l ≠ 0 := by
  intro h0
  rw [h0] at h
  exact Bool.noConfusion h

theorem run_requireValidState {c : Cadical} (hv : c.state.valid = true) (fn : String) :
    (requireValidState fn).run c = (.ok (), c) := by
  rw [requireValidState, run_bind, run_read, andThen_ok, hv, run_require_true]

/-- No function that asks for a valid state does anything while a search is going on. -/
theorem run_requireValidState_solving {c : Cadical} (hs : c.state = .solving) (fn : String) :
    (requireValidState fn).run c = (.error (invalidState fn), c) := by
  rw [requireValidState, run_bind, run_read, andThen_ok, hs]
  rfl

theorem run_requireReadyState {c : Cadical} (hv : c.state.valid = true) (ha : c.state ≠ .adding)
    (fn : String) : (requireReadyState fn).run c = (.ok (), c) := by
  have hb : (c.state != .adding) = true := bne_iff_ne.mpr ha
  rw [requireReadyState, run_bind, run_requireValidState hv, andThen_ok, run_bind, run_read,
    andThen_ok, hb, run_require_true]

theorem run_requireValidLit {c : Cadical} {l : ℤ} (h : c.usable l = true) (fn : String) :
    (requireValidLit fn l).run c = (.ok (), c) := by
  obtain ⟨h1, h2⟩ := Bool.and_eq_true_iff.mp h
  rw [requireValidLit, run_bind, h1, run_require_true, andThen_ok, run_bind, run_read, andThen_ok,
    h2, run_require_true]

theorem run_requireValidLit_refused {c : Cadical} {l : ℤ} (h : c.usable l = false)
    (fn : String) : ∃ t, (requireValidLit fn l).run c = (.error (.contract fn t), c) := by
  cases h1 : (l != 0 && l != naInteger) with
  | false => exact ⟨_, by rw [requireValidLit, run_bind, h1, run_require_false, andThen_error]⟩
  | true =>
    have h2 : c.isValidInput l = false := by
      rw [usable, h1, Bool.true_and] at h
      exact h
    exact ⟨_, by
      rw [requireValidLit, run_bind, h1, run_require_true, andThen_ok, run_bind, run_read,
        andThen_ok, h2, run_require_false]⟩

theorem run_internalize {c : Cadical} {l : ℤ} (hl : l ≠ 0) (h : c.molten l = false) :
    (internalize l).run c = (.ok (), initVars l.natAbs c) := by
  have hb : (l != 0) = true := bne_iff_ne.mpr hl
  rw [internalize, hb, run_doIf_true, run_bind, run_modify, andThen_ok, run_bind, run_read,
    andThen_ok]
  change (doIf (c.opts "checkfrozen" != 0) (require (!c.moltentab l.natAbs) _)).run _ = _
  cases hf : (c.opts "checkfrozen" != 0) with
  | false => rw [run_doIf_false]
  | true =>
    have hm : c.moltentab l.natAbs = false := by rwa [molten, hf, Bool.true_and] at h
    rw [run_doIf_true, hm, Bool.not_false, run_require_true]

theorem run_internalize_molten {c : Cadical} {l : ℤ} (hl : l ≠ 0) (h : c.molten l = true) :
    ∃ t, (internalize l).run c = (.error (.fatal t), initVars l.natAbs c) := by
  obtain ⟨hf, hm⟩ := Bool.and_eq_true_iff.mp h
  have hb : (l != 0) = true := bne_iff_ne.mpr hl
  refine ⟨s!"can not reuse molten literal {l.natAbs}", ?_⟩
  rw [internalize, hb, run_doIf_true, run_bind, run_modify, andThen_ok, run_bind, run_read,
    andThen_ok]
  change (doIf (c.opts "checkfrozen" != 0) (require (!c.moltentab l.natAbs) _)).run _ = _
  rw [hf, run_doIf_true, hm, Bool.not_true, run_require_false]

/-! ## `add` -/

/-- What is saved for the checks after some literals and zeros have been added. -/
def saved (c : Cadical) (p : List ℤ) : List ℤ := if c.savesOriginal then c.original ++ p else c.original

theorem saveOriginal_eq (l : ℤ) (c : Cadical) : saveOriginal l c = { c with original := c.saved [l] } := by
  rw [saveOriginal, saved]
  cases c.savesOriginal <;> rfl

theorem saved_append {c c' : Cadical} {p : List ℤ} (hopts : c'.opts = c.opts)
    (horiginal : c'.original = c.saved p) (q : List ℤ) : c'.saved q = c.saved (p ++ q) := by
  have hsaves : c'.savesOriginal = c.savesOriginal := by rw [savesOriginal, savesOriginal, hopts]
  rw [saved, hsaves, horiginal, saved, saved]
  cases c.savesOriginal with
  | true => exact List.append_assoc ..
  | false => rfl

/-- The solver after `add` took a literal. -/
def pushLit (c : Cadical) (l : ℤ) : Cadical :=
  { initVars l.natAbs c.transitionToSteadyState with
    clause := c.clause ++ [l], original := c.saved [l], addingClause := true, state := .adding }

/-- The solver after `add` took the terminating zero. -/
def endClause (c : Cadical) : Cadical :=
  { c.transitionToSteadyState with
    clauses := c.clauses ++ [c.clause], clause := [], original := c.saved [0], addingClause := false }

theorem run_add_zero {c : Cadical} (hv : c.state.valid = true) :
    (add 0).run c = (.ok (), c.endClause) := by
  rw [add, run_bind, run_requireValidState hv, andThen_ok]
  change (Except.ok (), enterAfter 0 (saveOriginal 0 c.transitionToSteadyState).addingConstraint
    { saveOriginal 0 c.transitionToSteadyState with clauses := _, clause := _, addingClause := _ }) = _
  rw [saveOriginal_eq]
  change (Except.ok (), enterAfter 0 c.addingConstraint _) = _
  cases c.addingConstraint <;> rfl

/-- The solver `External::add` internalizes a literal with. -/
def beforeAdd (c : Cadical) (l : ℤ) : Cadical :=
  { c.transitionToSteadyState with original := c.saved [l] }

theorem run_requireDeclared {c : Cadical} {l : ℤ}
    (h : (!c.needsDeclared || decide (l.natAbs ≤ c.maxVar)) = true) :
    (requireDeclared l).run c = (.ok (), c) := by
  rw [requireDeclared, run_bind, run_read, andThen_ok, run_bind]
  cases hd : decide (l.natAbs ≤ c.maxVar) with
  | true =>
    cases (c.opts "factor" != 0 && c.opts "factorcheck" == 1) <;>
      cases (c.opts "factorcheck" == 2) <;> rfl
  | false =>
    rw [hd, Bool.or_false, Bool.not_eq_true', needsDeclared, Bool.or_eq_false_iff] at h
    rw [h.1, run_doIf_false, andThen_ok, h.2, run_doIf_false]

theorem run_requireDeclared_refused {c : Cadical} {l : ℤ}
    (h : (!c.needsDeclared || decide (l.natAbs ≤ c.maxVar)) = false) :
    ∃ t, (requireDeclared l).run c = (.error (.contract "add" t), c) := by
  obtain ⟨hn, hd⟩ := Bool.or_eq_false_iff.mp h
  rw [Bool.not_eq_false', needsDeclared] at hn
  cases hf : (c.opts "factor" != 0 && c.opts "factorcheck" == 1) with
  | true =>
    exact ⟨_, by
      rw [requireDeclared, run_bind, run_read, andThen_ok, run_bind, hf, run_doIf_true, hd,
        run_require_false, andThen_error]⟩
  | false =>
    rw [hf, Bool.false_or] at hn
    exact ⟨_, by
      rw [requireDeclared, run_bind, run_read, andThen_ok, run_bind, hf, run_doIf_false,
        andThen_ok, hn, run_doIf_true, hd, run_require_false]⟩

/-- A literal that meets every `REQUIRE` reaches `External::add`. -/
theorem run_add_checked {c : Cadical} (hv : c.state.valid = true) {l : ℤ}
    (ha : c.addable l = true) :
    (add l).run c = andThen ((internalize l).run (c.beforeAdd l)) (fun _ => do
      modify fun c => { c with clause := c.clause ++ [l] }
      modify fun c => { c with addingClause := l ≠ 0 }
      modify fun c => enterAfter l c.addingConstraint c) := by
  obtain ⟨hd, hu⟩ := Bool.and_eq_true_iff.mp ha
  have hl := usable_ne_zero hu
  have hb : (l != 0) = true := bne_iff_ne.mpr hl
  have hi : c.transitionToSteadyState.isValidInput l = true := (Bool.and_eq_true_iff.mp hu).2
  rw [add, run_bind, run_requireValidState hv, andThen_ok, run_bind, hb, run_doIf_true,
    run_requireDeclared hd, andThen_ok, run_bind, run_doIf_true, run_requireValidLit hu,
    andThen_ok, run_bind, run_modify, andThen_ok, run_bind, externalAdd, run_bind, run_read,
    andThen_ok, run_bind, hb, run_doIf_true, hi, run_require_true, andThen_ok, run_bind, run_modify,
    andThen_ok, run_bind, saveOriginal_eq]
  change andThen (andThen ((internalize l).run (c.beforeAdd l)) _) _ = _
  rcases (internalize l).run (c.beforeAdd l) with ⟨r, c'⟩
  cases r with
  | error e => rfl
  | ok u => rw [andThen_ok, if_pos hl, andThen_ok]; rfl

theorem run_add_taken {c : Cadical} (hv : c.state.valid = true) {l : ℤ}
    (ha : c.addable l = true) (hm : c.molten l = false) :
    (add l).run c = (.ok (), c.pushLit l) := by
  have hl := usable_ne_zero (Bool.and_eq_true_iff.mp ha).2
  rw [run_add_checked hv ha, run_internalize (c := c.beforeAdd l) hl hm, andThen_ok]
  simp only [run_bind, run_modify, andThen_ok, enterAfter, ne_eq, hl,
    not_false_eq_true, decide_true]
  rfl

theorem run_add_molten {c : Cadical} (hv : c.state.valid = true) {l : ℤ}
    (ha : c.addable l = true) (hm : c.molten l = true) :
    ∃ t, (add l).run c = (.error (.fatal t), initVars l.natAbs (c.beforeAdd l)) := by
  have hl := usable_ne_zero (Bool.and_eq_true_iff.mp ha).2
  obtain ⟨t, ht⟩ := run_internalize_molten (c := c.beforeAdd l) hl hm
  exact ⟨t, by rw [run_add_checked hv ha, ht, andThen_error]⟩

theorem run_add_refused {c : Cadical} (hv : c.state.valid = true) {l : ℤ} (hl : l ≠ 0)
    (ha : c.addable l = false) : ∃ t, (add l).run c = (.error (.contract "add" t), c) := by
  have hb : (l != 0) = true := bne_iff_ne.mpr hl
  cases hd : (!c.needsDeclared || decide (l.natAbs ≤ c.maxVar)) with
  | false =>
    obtain ⟨t, ht⟩ := run_requireDeclared_refused hd
    exact ⟨t, by
      rw [add, run_bind, run_requireValidState hv, andThen_ok, run_bind, hb, run_doIf_true, ht,
        andThen_error]⟩
  | true =>
    have hu : c.usable l = false := by rwa [addable, hd, Bool.true_and] at ha
    obtain ⟨t, ht⟩ := run_requireValidLit_refused hu "add"
    exact ⟨t, by
      rw [add, run_bind, run_requireValidState hv, andThen_ok, run_bind, hb, run_doIf_true,
        run_requireDeclared hd, andThen_ok, run_bind, run_doIf_true, ht, andThen_error]⟩

/-! ## `constrain` -/

/-- The solver `External::constrain` continues from: a terminated constraint is dropped. -/
def openConstraint (c : Cadical) : Cadical :=
  { c with constraint := if c.constraint.getLast? = some 0 then [] else c.constraint }

/-- The solver after `constrain` took a literal. -/
def pushConstraint (c : Cadical) (l : ℤ) : Cadical :=
  { initVars l.natAbs c.transitionToSteadyState.openConstraint with
    constraint := c.transitionToSteadyState.openConstraint.constraint ++ [l]
    addingConstraint := true, state := .adding }

/-- The solver after `constrain` took the terminating zero. -/
def endConstraint (c : Cadical) : Cadical :=
  { c.transitionToSteadyState with
    constraint := c.transitionToSteadyState.openConstraint.constraint ++ [0]
    addingConstraint := false }

theorem run_constrain_zero {c : Cadical} (hv : c.state.valid = true) :
    (constrain 0).run c = (.ok (), c.endConstraint) := by
  rw [constrain, run_bind, run_requireValidState hv, andThen_ok]
  change (Except.ok (), enterAfter 0 c.addingClause _) = _
  cases c.addingClause <;> rfl

/-- A literal that meets every `REQUIRE` reaches `External::constrain`. -/
theorem run_constrain_checked {c : Cadical} (hv : c.state.valid = true) {l : ℤ}
    (hu : c.usable l = true) :
    (constrain l).run c =
      andThen ((internalize l).run c.transitionToSteadyState.openConstraint) (fun _ => do
        modify fun c => { c with constraint := c.constraint ++ [l] }
        modify fun c => { c with addingConstraint := l ≠ 0 }
        modify fun c => enterAfter l c.addingClause c) := by
  have hb : (l != 0) = true := bne_iff_ne.mpr (usable_ne_zero hu)
  rw [constrain, run_bind, run_requireValidState hv, andThen_ok, run_bind, hb, run_doIf_true,
    run_requireValidLit hu, andThen_ok, run_bind, run_modify, andThen_ok, run_bind,
    externalConstrain, run_bind, run_modify, andThen_ok, run_bind]
  change andThen (andThen ((internalize l).run c.transitionToSteadyState.openConstraint) _) _ = _
  rcases (internalize l).run c.transitionToSteadyState.openConstraint with ⟨r, c'⟩
  cases r <;> rfl

theorem run_constrain_taken {c : Cadical} (hv : c.state.valid = true) {l : ℤ}
    (hu : c.usable l = true) (hm : c.molten l = false) :
    (constrain l).run c = (.ok (), c.pushConstraint l) := by
  have hl := usable_ne_zero hu
  rw [run_constrain_checked hv hu,
    run_internalize (c := c.transitionToSteadyState.openConstraint) hl hm, andThen_ok]
  simp only [run_bind, run_modify, andThen_ok, enterAfter, ne_eq, hl, not_false_eq_true,
    decide_true]
  rfl

theorem run_constrain_molten {c : Cadical} (hv : c.state.valid = true) {l : ℤ}
    (hu : c.usable l = true) (hm : c.molten l = true) :
    ∃ t, (constrain l).run c =
      (.error (.fatal t), initVars l.natAbs c.transitionToSteadyState.openConstraint) := by
  obtain ⟨t, ht⟩ := run_internalize_molten (c := c.transitionToSteadyState.openConstraint)
    (usable_ne_zero hu) hm
  exact ⟨t, by rw [run_constrain_checked hv hu, ht, andThen_error]⟩

theorem run_constrain_refused {c : Cadical} (hv : c.state.valid = true) {l : ℤ} (hl : l ≠ 0)
    (hu : c.usable l = false) :
    ∃ t, (constrain l).run c = (.error (.contract "constrain" t), c) := by
  have hb : (l != 0) = true := bne_iff_ne.mpr hl
  obtain ⟨t, ht⟩ := run_requireValidLit_refused hu "constrain"
  exact ⟨t, by
    rw [constrain, run_bind, run_requireValidState hv, andThen_ok, run_bind, hb, run_doIf_true,
      ht, andThen_error]⟩

/-! ## `assume` -/

/-- The solver once `External::assume` has recorded a literal. -/
def recordAssumption (c : Cadical) (l : ℤ) : Cadical :=
  { c.transitionToSteadyState with
    assumptions := c.transitionToSteadyState.assumptions ++ [l] }

/-- The solver after `assume` took a literal, or found it molten. -/
def pushAssumption (c : Cadical) (l : ℤ) : Cadical := initVars l.natAbs (c.recordAssumption l)

theorem run_assume_checked {c : Cadical} (hv : c.state.valid = true) {l : ℤ}
    (hu : c.usable l = true) :
    (assume l).run c = (internalize l).run (c.recordAssumption l) := by
  rw [assume, run_bind, run_requireValidState hv, andThen_ok, run_bind, run_requireValidLit hu,
    andThen_ok, run_bind, run_modify, andThen_ok, run_bind, run_modify, andThen_ok]
  rfl

theorem run_assume_taken {c : Cadical} (hv : c.state.valid = true) {l : ℤ}
    (hu : c.usable l = true) (hm : c.molten l = false) :
    (assume l).run c = (.ok (), c.pushAssumption l) := by
  rw [run_assume_checked hv hu,
    run_internalize (c := c.recordAssumption l) (usable_ne_zero hu) hm, pushAssumption]

theorem run_assume_molten {c : Cadical} (hv : c.state.valid = true) {l : ℤ}
    (hu : c.usable l = true) (hm : c.molten l = true) :
    ∃ t, (assume l).run c = (.error (.fatal t), c.pushAssumption l) := by
  obtain ⟨t, ht⟩ := run_internalize_molten (c := c.recordAssumption l) (usable_ne_zero hu) hm
  exact ⟨t, by rw [run_assume_checked hv hu, ht, pushAssumption]⟩

theorem run_assume_refused {c : Cadical} (hv : c.state.valid = true) {l : ℤ}
    (hu : c.usable l = false) : ∃ t, (assume l).run c = (.error (.contract "assume" t), c) := by
  obtain ⟨t, ht⟩ := run_requireValidLit_refused hu "assume"
  exact ⟨t, by
    rw [assume, run_bind, run_requireValidState hv, andThen_ok, run_bind, ht, andThen_error]⟩

/-! ## Variables and searches -/

theorem run_vars {c : Cadical} (hs : c.state.valid = true ∨ c.state = .solving) :
    vars.run c = (.ok c.maxVar, c) := by
  have hv : c.state.validOrSolving = true := by
    rw [ApiState.validOrSolving, Bool.or_eq_true, beq_iff_eq]
    exact hs
  rw [vars, run_bind, requireValidOrSolvingState, run_bind, run_read, andThen_ok, hv, run_require_true,
    andThen_ok, run_bind, run_read, andThen_ok, run_pure]

theorem run_declareMoreVariables {c : Cadical} (hv : c.state.valid = true) (n : ℕ) :
    (declareMoreVariables n).run c = (.ok (), initVars (c.maxVar + n) c.transitionToSteadyState) := by
  rw [declareMoreVariables, run_bind, run_requireValidState hv, andThen_ok]
  rfl

/-- The solver as a search finds it. -/
def startSearch (c : Cadical) : Cadical :=
  updateMoltenLiterals { c.transitionToSteadyState with state := .solving }

/-- The solver when `Internal::solve` has returned, still in the state SOLVING. -/
def recordedSearch (preprocessOnly : Bool) (ask : Oracle) (c : Cadical) : Cadical :=
  recordSearch preprocessOnly (ask c.startSearch) c.startSearch

/-- What CaDiCaL finds when it checks the result. -/
def searchCheck (preprocessOnly : Bool) (ask : Oracle) (c : Cadical) : Except RError Unit :=
  (recordedSearch preprocessOnly ask c).checkSolveResult (ask c.startSearch)

/-- The solver after a search. -/
def afterSearch (preprocessOnly : Bool) (ask : Oracle) (c : Cadical) : Cadical :=
  { recordedSearch preprocessOnly ask c with
    limits := [], state := (ask c.startSearch).res.state }

/-- The solver `simplify` starts searching from. -/
def limitRounds (c : Cadical) : Cadical :=
  { c with limits := c.limits ++ [("preprocessing", 3)] }

/-- A search whose result stands. -/
theorem run_callExternalSolve {c : Cadical} {pre : Bool} {ask : Oracle}
    (hcheck : searchCheck pre ask c = .ok ()) :
    (callExternalSolve pre ask).run c = (.ok (ask c.startSearch), afterSearch pre ask c) := by
  rw [callExternalSolve, run_bind, run_modify, andThen_ok, run_bind, run_modify, andThen_ok, run_bind,
    externalSolve, run_bind, run_modify, andThen_ok, run_bind, run_read, andThen_ok, run_bind, run_modify,
    andThen_ok, run_bind, run_read, andThen_ok, run_bind]
  change andThen (andThen ((ofExcept (searchCheck pre ask c)).run (recordedSearch pre ask c)) _) _ = _
  rw [hcheck]
  rfl

/-- A failed check ends the call in the middle. -/
theorem run_callExternalSolve_failed {c : Cadical} {pre : Bool} {ask : Oracle} {e : RError}
    (hcheck : searchCheck pre ask c = .error e) :
    (callExternalSolve pre ask).run c = (.error e, recordedSearch pre ask c) := by
  rw [callExternalSolve, run_bind, run_modify, andThen_ok, run_bind, run_modify, andThen_ok, run_bind,
    externalSolve, run_bind, run_modify, andThen_ok, run_bind, run_read, andThen_ok, run_bind, run_modify,
    andThen_ok, run_bind, run_read, andThen_ok, run_bind]
  change andThen (andThen ((ofExcept (searchCheck pre ask c)).run (recordedSearch pre ask c)) _) _ = _
  rw [hcheck]
  rfl

theorem run_solve_ready {c : Cadical} (hv : c.state.valid = true) (ha : c.state ≠ .adding)
    (ask : Oracle) : (solve ask).run c = (callExternalSolve false ask).run c := by
  rw [solve, run_bind, run_requireReadyState hv ha, andThen_ok]

theorem run_simplify_ready {c : Cadical} (hv : c.state.valid = true) (ha : c.state ≠ .adding)
    (ask : Oracle) : (simplify ask).run c = (callExternalSolve true ask).run c.limitRounds := by
  rw [simplify, run_bind, run_requireReadyState hv ha, andThen_ok]
  rfl

/-- Without option `check` every result stands. -/
theorem searchCheck_off {c : Cadical} (hoff : c.opts "check" = 0) (pre : Bool) (ask : Oracle) :
    searchCheck pre ask c = .ok () := by
  have hstart : c.startSearch.opts = c.opts := by
    rw [startSearch, updateMoltenLiterals]
    split <;> rfl
  have hopts : (recordedSearch pre ask c).opts "check" = 0 := by
    change c.startSearch.opts "check" = 0
    rw [hstart, hoff]
  rw [searchCheck, checkSolveResult, if_pos hopts]

/-! ## Failed checks -/

theorem checkAssignment_error {c : Cadical} {begun lits : List ℤ} {e : RError}
    (h : c.checkAssignment begun lits = .error e) : e.fromCadical = true ∧ e.isContract = false := by
  induction lits generalizing begun with
  | nil => cases h
  | cons lit rest ih =>
    rw [checkAssignment] at h
    split at h
    · exact ih h
    · split at h
      · exact ih h
      · obtain rfl := Except.error.inj h
        exact ⟨rfl, rfl⟩

theorem except_if_error {b : Prop} [Decidable b] {x : Except RError Unit} {e : RError}
    (h : (if b then x else .ok ()) = .error e) : x = .error e := by
  split at h
  · exact h
  · cases h

theorem checkSatisfiable_error {c : Cadical} {e : RError} (h : c.checkSatisfiable = .error e) :
    e.fromCadical = true ∧ e.isContract = false := by
  rcases except_bind_error.mp h with h | ⟨-, -, h⟩
  · exact checkAssignment_error (except_if_error h)
  rcases except_bind_error.mp h with h | ⟨-, -, h⟩
  · have h := except_if_error h
    rw [checkAssumptionsSatisfied] at h
    split at h
    · obtain rfl := Except.error.inj h
      exact ⟨rfl, rfl⟩
    · cases h
  · have h := except_if_error h
    rw [checkConstraintSatisfied] at h
    split at h
    · cases h
    · obtain rfl := Except.error.inj h
      exact ⟨rfl, rfl⟩

/-- A failed check is CaDiCaL's own error, and no violated contract but for a clause that was begun. -/
theorem checkSolveResult_error {c : Cadical} {a : Answer} {e : RError}
    (h : c.checkSolveResult a = .error e) : e.fromCadical = true ∧
      (e.isContract = true → a.res = .unsat ∧ c.opts "check" ≠ 0 ∧ c.opts "checkfailed" ≠ 0 ∧
        (c.assumptions ≠ [] ∨ c.constraint ≠ []) ∧
        c.handedToChecker.getLast?.any (fun lit => lit ≠ 0) = true) := by
  rw [checkSolveResult] at h
  split at h
  · cases h
  · next hcheck =>
    cases hres : a.res with
    | sat =>
      simp only [hres] at h
      have herr := checkSatisfiable_error h
      exact ⟨herr.1, fun hc => by rw [herr.2] at hc; cases hc⟩
    | unknown =>
      simp only [hres] at h
      cases h
    | unsat =>
      simp only [hres] at h
      rw [checkUnsatisfiable] at h
      split at h
      · next hfailed =>
        rw [checkFailing] at h
        split at h
        · next hhalf =>
          obtain rfl := Except.error.inj h
          exact ⟨rfl, fun _ => ⟨rfl, hcheck, hfailed.1, hfailed.2, hhalf⟩⟩
        · split at h
          · obtain rfl := Except.error.inj h
            exact ⟨rfl, fun hc => by cases hc⟩
          · cases h
      · cases h

theorem searchCheck_error {c : Cadical} {pre : Bool} {ask : Oracle} {e : RError}
    (h : searchCheck pre ask c = .error e) : e.fromCadical = true := (checkSolveResult_error h).1

/-- A search is refused while a clause or constraint is unterminated. -/
theorem run_requireReadyState_adding {c : Cadical} (ha : c.state = .adding) (fn : String) :
    (requireReadyState fn).run c = (.error (.contract fn
      "clause incomplete (terminating zero not added)"), c) := by
  rw [requireReadyState, run_bind, run_requireValidState (by rw [ha]; rfl), andThen_ok, run_bind,
    run_read, andThen_ok, ha]
  rfl

end Cadical
end Zusat
