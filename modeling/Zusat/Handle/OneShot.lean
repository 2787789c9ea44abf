import Zusat.Handle.Calls

/-! # Assumptions and constraints are one-shot

What a search is meant to start with is said by a small machine of its own, `OneShot`: a constraint
waits for the next search, a later one replaces it, a search uses it up, and assumptions belong to
the call that names them. CaDiCaL instead clears both lazily, when some call leaves the state in
which the search ended; `Refines` says how the two agree in between. -/

namespace Zusat
open Foundations Foundations.Prog
set_option autoImplicit false

namespace Handle

/-- The constraint waiting for the next search, and what each search so far was to start with:
preprocessing only or not, its assumptions, its constraint. -/
structure OneShot where
  pending : Option (List ℤ)
  log : List (Bool × List ℤ × Option (List ℤ))

namespace OneShot

/-- Nothing waits and nothing was searched. -/
def init : OneShot := ⟨none, []⟩

/-- A search uses up the waiting constraint. -/
def search (a : OneShot) (preprocessOnly : Bool) (assumptions : List ℤ) : OneShot :=
  ⟨none, a.log ++ [(preprocessOnly, assumptions, a.pending)]⟩

/-- One entry call. Only `constrain`, `solve` and `simplify` matter, and the first two only with a
vector of literals they accept. -/
def step (a : OneShot) : EntryCall → OneShot
  | .constrain x =>
    match litsOf x with
    | some p => { a with pending := some p }
    | none => a
  | .solve x _ =>
    match litsOf x with
    | some p => a.search false p
    | none => a
  | .simplify _ => a.search true []
  | _ => a

theorem step_idle (a : OneShot) {e : EntryCall} (h : idle e) : a.step e = a := by
  cases e with
  | constrain x => rw [step, (h : litsOf x = none)]
  | solve x ask => rw [step, (h : litsOf x = none)]
  | simplify ask => exact h.elim
  | _ => rfl

end OneShot

/-- The literals CaDiCaL keeps for a constraint, with their terminating zero. -/
def inForce : Option (List ℤ) → List ℤ
  | some p => p ++ [0]
  | none => []

theorem open_inForce (o : Option (List ℤ)) :
    (if (inForce o).getLast? = some 0 then [] else inForce o) = [] := by
  cases o with
  | none => rfl
  | some p => rw [inForce, List.getLast?_append, List.getLast?_singleton, Option.some_or, if_pos rfl]

theorem inForce_ne_nil (o : Option (List ℤ)) : inForce o ≠ [] ↔ o.isSome = true := by
  cases o <;> simp [inForce]

/-- What a search starts with, without its answer. -/
def Search.start (s : Search) : Bool × List ℤ × List ℤ :=
  (s.preprocessOnly, s.assumptions, s.constraint)

/-- The handle is where the one-shot machine says. -/
structure Refines (h : Handle) (a : OneShot) : Prop where
  ready : h.solver.state.ready = true
  assumptions : h.solver.transitionToSteadyState.assumptions = []
  constraint : h.solver.transitionToSteadyState.constraint = inForce a.pending
  pending : h.constraintPending = a.pending.isSome
  searches : h.solver.searches.map Search.start =
    a.log.map fun s => (s.1, s.2.1, inForce s.2.2)

theorem refines_new : Refines new OneShot.init := ⟨rfl, rfl, rfl, rfl, rfl⟩

theorem startSearch_constraint (c : Cadical) :
    c.startSearch.constraint = c.transitionToSteadyState.constraint := by
  rw [Cadical.startSearch, Cadical.updateMoltenLiterals]
  split <;> rfl

theorem startSearch_assumptions (c : Cadical) :
    c.startSearch.assumptions = c.transitionToSteadyState.assumptions := by
  rw [Cadical.startSearch, Cadical.updateMoltenLiterals]
  split <;> rfl

theorem startSearch_searches (c : Cadical) : c.startSearch.searches = c.searches := by
  rw [Cadical.startSearch, Cadical.updateMoltenLiterals]
  split <;> rfl

/-- A search that starts with `p` and the waiting constraint is the next entry of the log, and
leaves nothing behind for the one after it. -/
theorem Refines.finish {h h₀ : Handle} {a : OneShot} (hr : Refines h a) {c : Cadical} {p : List ℤ}
    (hass : c.transitionToSteadyState.assumptions = p)
    (hcon : c.transitionToSteadyState.constraint = h.solver.transitionToSteadyState.constraint)
    (hsea : c.searches = h.solver.searches) (pre : Bool) (ask : Oracle) :
    Refines (Handle.finish h₀ (ask c.startSearch) (Cadical.afterSearch pre ask c))
      (a.search pre p) := by
  have hended : (ask c.startSearch).res.state.ended = true := by
    cases (ask c.startSearch).res <;> rfl
  refine ⟨?_, ?_, ?_, rfl, ?_⟩
  · change (ask c.startSearch).res.state.ready = true
    cases (ask c.startSearch).res <;> rfl
  · exact if_pos hended
  · exact if_pos hended
  · change (c.startSearch.searches ++ [_]).map Search.start = (a.log ++ [_]).map _
    rw [List.map_append, List.map_append, startSearch_searches, hsea, hr.searches]
    congr 1
    rw [List.map_singleton, List.map_singleton, Search.start]
    rw [startSearch_assumptions, startSearch_constraint, hass, hcon, hr.constraint]

theorem transition_foldl_pushAssumption (c : Cadical) (p : List ℤ) :
    (p.foldl Cadical.pushAssumption c).transitionToSteadyState.assumptions =
        c.transitionToSteadyState.assumptions ++ p ∧
      (p.foldl Cadical.pushAssumption c).transitionToSteadyState.constraint =
        c.transitionToSteadyState.constraint ∧
      (p.foldl Cadical.pushAssumption c).searches = c.searches := by
  cases p with
  | nil => exact ⟨(List.append_nil _).symm, rfl, rfl⟩
  | cons l p =>
    rw [Cadical.foldl_pushAssumption]
    exact ⟨rfl, rfl, rfl⟩

theorem Refines.of_core {h h' : Handle} {a : OneShot} (hr : Refines h a)
    (hcore : core h' = core h) : Refines h' a := by
  have hsolver : coreSolver h'.solver = coreSolver h.solver := congrArg Handle.solver hcore
  refine ⟨?_, ?_, ?_, ?_, ?_⟩
  · exact (congrArg (fun c : Cadical => c.state.ready) hsolver).trans hr.ready
  · exact (congrArg (fun c : Cadical => c.transitionToSteadyState.assumptions) hsolver).trans
      hr.assumptions
  · exact (congrArg (fun c : Cadical => c.transitionToSteadyState.constraint) hsolver).trans
      hr.constraint
  · exact (congrArg Handle.constraintPending hcore).trans hr.pending
  · exact (congrArg (fun c : Cadical => c.searches.map Search.start) hsolver).trans hr.searches

/-- Every entry call that CaDiCaL does not stop is a step of the one-shot machine. -/
theorem Refines.step {h : Handle} {a : OneShot} (hr : Refines h a) (e : EntryCall)
    (hok : noCadicalError (entryStep h e).1 = true) : Refines (entryStep h e).2 (a.step e) := by
  have hdid := entry_cases hr.ready e hok
  generalize (entryStep h e).2 = h' at hdid
  cases hdid with
  | nothing hcore hidle =>
    rw [OneShot.step_idle a hidle]
    exact hr.of_core hcore
  | added => exact ⟨rfl, hr.assumptions, hr.constraint, hr.pending, hr.searches⟩
  | reserved => exact ⟨rfl, hr.assumptions, hr.constraint, hr.pending, hr.searches⟩
  | constrained hx =>
    rw [OneShot.step, hx]
    refine ⟨rfl, hr.assumptions, ?_, rfl, hr.searches⟩
    change (if h.solver.transitionToSteadyState.constraint.getLast? = some 0 then []
      else h.solver.transitionToSteadyState.constraint) ++ _ = _
    rw [hr.constraint, open_inForce]
    rfl
  | @solved x p ask hx =>
    rw [OneShot.step, hx]
    obtain ⟨hass, hcon, hsea⟩ := transition_foldl_pushAssumption h.solver p
    rw [hr.assumptions, List.nil_append] at hass
    exact hr.finish hass hcon hsea false ask
  | @simplified ask =>
    exact hr.finish (c := h.solver.limitRounds) hr.assumptions rfl rfl true ask

theorem refines_run {es : List EntryCall} {h : Handle} {a : OneShot} (hr : Refines h a)
    (hok : Every entryStep (fun _ _ r => noCadicalError r = true) h es) :
    Refines (run entryStep h es) (es.foldl OneShot.step a) := by
  induction es generalizing h a with
  | nil => exact hr
  | cons e es ih => exact ih (hr.step e hok.1) hok.2

/-- In every run that CaDiCaL does not stop, each search started with what the one-shot machine
says, and `constraint_pending` says whether the next one would find a constraint. -/
theorem searches_one_shot (es : List EntryCall)
    (hok : Every entryStep (fun _ _ r => noCadicalError r = true) new es) :
    let h := run entryStep new es
    let a := es.foldl OneShot.step OneShot.init
    h.solver.searches.map Search.start = a.log.map (fun s => (s.1, s.2.1, inForce s.2.2)) ∧
      h.solver.startSearch.assumptions = [] ∧
      h.solver.startSearch.constraint = inForce a.pending ∧
      h.constraintPending = a.pending.isSome ∧
      (h.constraintPending = true ↔ h.solver.startSearch.constraint ≠ []) := by
  have hr := refines_run refines_new hok
  refine ⟨hr.searches, ?_, ?_, hr.pending, ?_⟩
  · rw [startSearch_assumptions, hr.assumptions]
  · rw [startSearch_constraint, hr.constraint]
  · rw [startSearch_constraint, hr.constraint, hr.pending, inForce_ne_nil]

/-- A search that finds nothing out. -/
def noAnswer (interrupted : Bool) : Oracle := fun _ =>
  ⟨.unknown, interrupted, fun _ => true, fun _ => false, false, 0, .unknown⟩

/-- A constraint is replaced by the next one, outlives an added clause, and is gone after the
search that used it, interrupted or not. -/
theorem searches_one_shot_replaced :
    let es : List EntryCall := [.constrain (.int [1]), .constrain (.int [2, 3]),
      .addClause (.int [4]), .solve (.int [-2]) (noAnswer true), .simplify (noAnswer false)]
    let h := run entryStep new es
    Every entryStep (fun _ _ r => noCadicalError r = true) new es ∧
      h.solver.searches.map Search.start = [(false, [-2], [2, 3, 0]), (true, [], [])] := by
  intro es h
  have hok : Every entryStep (fun _ _ r => noCadicalError r = true) new es :=
    ⟨by decide, by decide, by decide, by decide, by decide, trivial⟩
  exact ⟨hok, (searches_one_shot es hok).1.trans (by decide)⟩

end Handle
end Zusat
