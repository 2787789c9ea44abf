import Zusat.Session.Invariants

/-! # Calls that change the formula, whole or not at all

The package checks everything it can before it adds anything, but CaDiCaL looks at each literal as it
comes. A call that CaDiCaL stops has changed nothing exactly when it stops at the very first demand, that
demand was not saved for the checks before it was refused, and no earlier call had left anything begun. -/

namespace Zusat
open Foundations Foundations.Prog
set_option autoImplicit false

namespace Session

/-- The literals of a constraint begun but not terminated. -/
def begunConstraint (c : Cadical) : List ℤ := c.openConstraint.constraint

/-- The literals of a clause begun but not terminated, in what is saved for the checks. -/
def begunOriginal (c : Cadical) : List ℤ := (c.original.reverse.takeWhile fun l => l != 0).reverse

structure nothingBegun (s : Session) : Prop where
  clause : s.solver.clause = []
  constraint : begunConstraint s.solver = []
  original : begunOriginal s.solver = []

/-- The formula is what it was, and nothing is left begun. -/
structure Untouched (s s' : Session) : Prop where
  clauses : s'.solver.clauses = s.solver.clauses
  clause : s'.solver.clause = s.solver.clause
  constraint : begunConstraint s'.solver = begunConstraint s.solver
  original : s'.solver.original = s.solver.original
  begun : nothingBegun s'
  maxVar : s'.solver.maxVar = s.solver.maxVar
  aux : s'.aux = s.aux

/-- If the call raises an error, it has left the formula alone. -/
def AllOrNothing (s : Session) (c : Call) : Prop :=
  ∀ e, (step s c).1 = .error e → Untouched s (step s c).2

/-- The calls that add clauses, a constraint or variables. -/
def changesFormula : Call → Prop
  | .add _ => True
  | .constrain _ => True
  | .cardinality .. => True
  | .reserve _ => True
  | _ => False

/-! ## What a call demands of CaDiCaL -/

/-- One call of `add` or `constrain`, with a literal or the terminating zero, or more variables. -/
inductive Demand where
  | add (lit : ℤ)
  | constrain (lit : ℤ)
  | declare
  deriving DecidableEq, Repr

/-- The demands of one clause. -/
def clauseDemands (cl : List ℤ) : List Demand := cl.map .add ++ [.add 0]

/-- All that a call demands, in order, or its own refusal. -/
def demands (s : Session) : Call → Except RError (List Demand)
  | .add x => (addHands s.aux x).map fun cls => cls.flatMap clauseDemands
  | .constrain literals => (constrainHands s.aux literals).map fun p => p.map .constrain ++ [.constrain 0]
  | .cardinality b literals k encoding =>
    (cardHands s.aux s.solver.maxVar b literals k encoding).map fun a => a.2.2.clauses.flatMap clauseDemands
  | .reserve n => (reserveHands s.aux n).map fun n => if s.solver.maxVar < n then [.declare] else []
  | _ => .ok []

/-- CaDiCaL was not left in a search, and takes the literal: its variable is declared where that is asked
for, it is no extension variable, and it is not molten. -/
def grants (c : Cadical) : Demand → Bool
  | .add lit => c.state.valid && (lit == 0 || c.takes lit)
  | .constrain lit => c.state.valid && (lit == 0 || c.accepts lit)
  | .declare => c.state.valid

/-- A literal is saved for the checks before CaDiCaL finds that it is molten. -/
def savesRefused (c : Cadical) : Demand → Bool
  | .add lit => c.state.valid && c.addable lit && c.savesOriginal
  | _ => false

/-- CaDiCaL grants every demand; or nothing was begun before, and either the package refuses the
arguments itself or CaDiCaL refuses the very first demand, which it had not saved. -/
def TakenWhole (s : Session) (c : Call) : Prop :=
  match demands s c with
  | .error _ => nothingBegun s
  | .ok ds => (∀ d ∈ ds, grants s.solver d = true) ∨
      (nothingBegun s ∧ ∃ d ∈ ds.head?, grants s.solver d = false ∧ savesRefused s.solver d = false)

theorem untouched_self {s : Session} : Untouched s s ↔ nothingBegun s :=
  ⟨fun h => h.begun, fun h => ⟨rfl, rfl, rfl, rfl, h, rfl, rfl⟩⟩

/-- The flags of the handle do not matter. -/
theorem untouched_same {s s' : Session} (hsolver : s'.solver = s.solver) (haux : s'.aux = s.aux) :
    Untouched s s' ↔ nothingBegun s := by
  have hbegun : nothingBegun s' ↔ nothingBegun s := by
    constructor <;> intro h
    · exact ⟨hsolver ▸ h.clause, hsolver ▸ h.constraint, hsolver ▸ h.original⟩
    · exact ⟨hsolver ▸ h.clause, hsolver ▸ h.constraint, hsolver ▸ h.original⟩
  refine ⟨fun h => hbegun.mp h.begun, fun h => ?_⟩
  exact ⟨by rw [hsolver], by rw [hsolver], by rw [hsolver], by rw [hsolver], hbegun.mpr h, by rw [hsolver], haux⟩

/-! ## The three ways a call ends -/

section Ends
variable {s s' : Session} {c : Call} {e : RError}

theorem allOrNothing_accepted {a : CallResult} {ds : List Demand} (hstep : step s c = (.ok a, s'))
    (hds : demands s c = .ok ds) (hall : ∀ d ∈ ds, grants s.solver d = true) :
    AllOrNothing s c ↔ TakenWhole s c := by
  rw [TakenWhole, hds]
  refine ⟨fun _ => .inl hall, fun _ e he => ?_⟩
  rw [hstep] at he
  cases he

theorem allOrNothing_refused (hstep : step s c = (.error e, s)) (hds : demands s c = .error e) :
    AllOrNothing s c ↔ TakenWhole s c := by
  rw [TakenWhole, hds, AllOrNothing, hstep, ← untouched_self]
  exact ⟨fun h => h e rfl, fun h _ _ => h⟩

/-- The call stops at the demand `d`; the ones before it were granted. -/
theorem allOrNothing_stopped {before later : List Demand} {d : Demand} (hstep : step s c = (.error e, s'))
    (hds : demands s c = .ok (before ++ d :: later)) (hbefore : ∀ x ∈ before, grants s.solver x = true)
    (hstop : grants s.solver d = false)
    (hiff : Untouched s s' ↔ nothingBegun s ∧ before = [] ∧ savesRefused s.solver d = false) :
    AllOrNothing s c ↔ TakenWhole s c := by
  rw [TakenWhole, hds, AllOrNothing, hstep]
  constructor
  · intro h
    obtain ⟨hbegun, rfl, hsaves⟩ := hiff.mp (h e rfl)
    exact .inr ⟨hbegun, d, rfl, hstop, hsaves⟩
  · rintro (hall | ⟨hbegun, x, hx, hrefused, hsaves⟩) _ _
    · rw [hall d (by simp)] at hstop
      cases hstop
    · cases before with
      | nil =>
        obtain rfl : d = x := Option.some.inj hx
        exact hiff.mpr ⟨hbegun, rfl, hsaves⟩
      | cons y before =>
        obtain rfl : y = x := Option.some.inj hx
        rw [hbefore y (List.mem_cons_self ..)] at hrefused
        cases hrefused

/-- A solver left in a search grants nothing. -/
theorem grants_solving {c : Cadical} (hs : c.state = .solving) (d : Demand) : grants c d = false := by
  cases d <;> rw [grants, hs] <;> rfl

theorem savesRefused_solving {c : Cadical} (hs : c.state = .solving) (d : Demand) :
    savesRefused c d = false := by
  cases d with
  | add l =>
    rw [savesRefused, hs]
    rfl
  | constrain | declare => rfl

theorem allOrNothing_solving (hs : s.solver.state = .solving) {ds : List Demand}
    (hstep : step s c = (.error e, s')) (hsolver : s'.solver = s.solver) (haux : s'.aux = s.aux)
    (hds : demands s c = .ok ds) (hne : ds ≠ []) : AllOrNothing s c ↔ TakenWhole s c := by
  cases ds with
  | nil => exact absurd rfl hne
  | cons d ds =>
    have hds : demands s c = .ok ([] ++ d :: ds) := hds
    refine allOrNothing_stopped hstep hds (by simp) (grants_solving hs d) ?_
    rw [untouched_same hsolver haux]
    exact ⟨fun h => ⟨h, rfl, savesRefused_solving hs d⟩, And.left⟩

end Ends

/-! ## Demands of clauses -/

theorem flatMap_clauseDemands_eq_nil {cls : List (List ℤ)} : cls.flatMap clauseDemands = [] ↔ cls = [] := by
  cases cls with
  | nil => exact ⟨fun _ => rfl, fun _ => rfl⟩
  | cons cl cls => simp [clauseDemands]

section Clauses
variable {c : Cadical}

theorem grants_add (hv : c.state.valid = true) {l : ℤ} (ht : c.takes l = true) :
    grants c (.add l) = true := by
  rw [grants, hv, ht, Bool.or_true, Bool.and_true]

theorem grants_zero (hv : c.state.valid = true) : grants c (.add 0) = true := by
  rw [grants, hv]
  rfl

theorem grants_clauses (hv : c.state.valid = true) {cls : List (List ℤ)}
    (hall : ∀ cl ∈ cls, ∀ l ∈ cl, c.takes l = true) :
    ∀ d ∈ cls.flatMap clauseDemands, grants c d = true := by
  intro d hd
  obtain ⟨cl, hcl, hd⟩ := List.mem_flatMap.mp hd
  rcases List.mem_append.mp hd with hd | hd
  · obtain ⟨l, hl, rfl⟩ := List.mem_map.mp hd
    exact grants_add hv (hall cl hcl l hl)
  · rw [List.mem_singleton.mp hd]
    exact grants_zero hv

/-- Where the clauses stop, the demands do. -/
theorem StopsAt.demands {cls done : List (List ℤ)} {q : List ℤ} {l : ℤ} (h : StopsAt c cls done q l) :
    ∃ later, cls.flatMap clauseDemands =
      (done.flatMap clauseDemands ++ q.map Demand.add) ++ .add l :: later := by
  obtain ⟨r, rest, hsplit⟩ := h.split
  refine ⟨r.map .add ++ [.add 0] ++ rest.flatMap clauseDemands, ?_⟩
  rw [hsplit, List.flatMap_append, List.flatMap_cons, clauseDemands, List.map_append, List.map_cons]
  simp only [List.append_assoc, List.cons_append]

theorem StopsAt.refused {cls done : List (List ℤ)} {q : List ℤ} {l : ℤ} (h : StopsAt c cls done q l)
    (hvalid : ∀ cl ∈ cls, ∀ x ∈ cl, ValidLit x) : grants c (.add l) = false := by
  obtain ⟨r, rest, hsplit⟩ := h.split
  have hl : ValidLit l := hvalid (q ++ l :: r) (by rw [hsplit]; simp) l (by simp)
  rw [grants, beq_eq_false_iff_ne.mpr hl.1, h.stop, Bool.or_false, Bool.and_false]

theorem StopsAt.granted (hv : c.state.valid = true) {cls done : List (List ℤ)} {q : List ℤ} {l : ℤ}
    (h : StopsAt c cls done q l) :
    ∀ d ∈ done.flatMap clauseDemands ++ q.map Demand.add, grants c d = true := by
  intro d hd
  rcases List.mem_append.mp hd with hd | hd
  · exact grants_clauses hv h.done d hd
  · obtain ⟨x, hx, rfl⟩ := List.mem_map.mp hd
    exact grants_add hv (h.before x hx)

end Clauses

/-! ## Stopping inside the clauses -/

theorem begunConstraint_transition {c : Cadical} (h : begunConstraint c = []) :
    begunConstraint c.transitionToSteadyState = [] := by
  rw [begunConstraint, Cadical.openConstraint] at h ⊢
  rw [Cadical.transitionToSteadyState]
  cases c.state.ended
  · exact h
  · rfl

/-- Stopping at a literal that had not been taken before does not declare it. -/
theorem RangesKnown.molten_known {s : Session} (hs : RangesKnown s) {l : ℤ} (hm : s.solver.molten l = true) :
    max s.solver.maxVar l.natAbs = s.solver.maxVar :=
  max_eq_left (hs.molten_le _ (Bool.and_eq_true_iff.mp hm).2)

/-- The first literal is refused: it has been saved, or nothing has changed. -/
theorem untouched_stopAdd {s : Session} (hs : RangesKnown s) (hv : s.solver.state.valid = true) {l : ℤ}
    (hstop : s.solver.takes l = false) :
    Untouched s (s.withHandle ((Handle.invalidate s.handle).withSolver (s.solver.stopAdd l))) ↔
      nothingBegun s ∧ savesRefused s.solver (.add l) = false := by
  rw [Cadical.stopAdd, savesRefused, hv, Bool.true_and]
  cases ha : s.solver.addable l with
  | false =>
    rw [if_neg Bool.false_ne_true, Bool.false_and]
    have hsame : Untouched s (s.withHandle ((Handle.invalidate s.handle).withSolver s.solver)) ↔
        nothingBegun s := untouched_same rfl rfl
    exact hsame.trans ⟨fun h => ⟨h, rfl⟩, And.left⟩
  | true =>
    have hm : s.solver.molten l = true := by
      rw [Cadical.takes, ha, Bool.true_and] at hstop
      simpa using hstop
    rw [if_pos rfl, Bool.true_and]
    constructor
    · intro h
      have horiginal : s.solver.saved [l] = s.solver.original := h.original
      rw [Cadical.saved] at horiginal
      cases hsaves : s.solver.savesOriginal with
      | true =>
        rw [hsaves, if_pos rfl] at horiginal
        simp at horiginal
      | false =>
        have hbegun : begunOriginal s.solver = [] := by
          rw [begunOriginal, ← show _ = s.solver.original from h.original]
          exact h.begun.original
        exact ⟨⟨h.clause ▸ h.begun.clause, h.constraint ▸ h.begun.constraint, hbegun⟩, rfl⟩
    · rintro ⟨hbegun, hsaves⟩
      have horiginal : s.solver.saved [l] = s.solver.original := by
        rw [Cadical.saved, hsaves, if_neg Bool.false_ne_true]
      have hc := begunConstraint_transition hbegun.constraint
      refine ⟨rfl, rfl, hc.trans hbegun.constraint.symm, horiginal, ⟨hbegun.clause, hc, ?_⟩,
        hs.molten_known hm, rfl⟩
      change ((s.solver.saved [l]).reverse.takeWhile _).reverse = _
      rw [horiginal]
      exact hbegun.original

theorem untouched_stoppedAt {s : Session} (hs : RangesKnown s) (hv : s.solver.state.valid = true)
    {cls done : List (List ℤ)} {q : List ℤ} {l : ℤ} (hstop : StopsAt s.solver cls done q l) :
    Untouched s (s.withHandle (stoppedAt s.handle done q l)) ↔ nothingBegun s ∧
      done.flatMap clauseDemands ++ q.map Demand.add = [] ∧ savesRefused s.solver (.add l) = false := by
  have hclauses : (stoppedAt s.handle done q l).solver.clauses.length =
      s.solver.clauses.length + done.length := by
    rw [← Cadical.foldl_takeClause_length]
    change ((q.foldl Cadical.pushLit (done.foldl Cadical.takeClause s.solver)).stopAdd
      l).clauses.length = _
    rw [(Cadical.stopAdd_clauses _ l).1, (Cadical.foldl_pushLit_clauses _ q).1]
  rw [List.append_eq_nil_iff, flatMap_clauseDemands_eq_nil, List.map_eq_nil_iff]
  constructor
  · intro h
    have hdone : done = [] := by
      have hlen := congrArg List.length h.clauses
      rw [show (s.withHandle (stoppedAt s.handle done q l)).solver.clauses.length = _ from hclauses]
        at hlen
      exact List.length_eq_zero_iff.mp (by omega)
    subst hdone
    have hclause : s.solver.clause ++ q = [] := by
      rw [← (Cadical.foldl_pushLit_clauses s.solver q).2, ← (Cadical.stopAdd_clauses _ l).2]
      exact h.begun.clause
    obtain ⟨-, rfl⟩ := List.append_eq_nil_iff.mp hclause
    obtain ⟨hbegun, hsaves⟩ := (untouched_stopAdd hs hv hstop.stop).mp h
    exact ⟨hbegun, ⟨rfl, rfl⟩, hsaves⟩
  · rintro ⟨hbegun, ⟨rfl, rfl⟩, hsaves⟩
    exact (untouched_stopAdd hs hv hstop.stop).mpr ⟨hbegun, hsaves⟩

/-! ## Stopping inside the constraint -/

theorem begunConstraint_open (c : Cadical) :
    begunConstraint c.openConstraint = begunConstraint c := by
  rw [begunConstraint, begunConstraint, Cadical.openConstraint, Cadical.openConstraint]
  by_cases h : c.constraint.getLast? = some 0
  · simp [h]
  · simp [h]

theorem begunConstraint_stop {c : Cadical} (hc : c.state.ended = false) (l : ℤ) :
    begunConstraint (c.stopConstrain l) = begunConstraint c := by
  rw [Cadical.stopConstrain]
  split
  · change begunConstraint c.transitionToSteadyState.openConstraint = _
    rw [begunConstraint_open, begunConstraint, begunConstraint, Cadical.openConstraint,
      Cadical.openConstraint, Cadical.transitionToSteadyState, hc]
    rfl
  · rfl

/-- Once a literal of a constraint is taken, a constraint is begun. -/
theorem begunConstraint_foldl {c : Cadical} {x : ℤ} {q : List ℤ} (hq : ∀ y ∈ x :: q, y ≠ 0) :
    begunConstraint ((x :: q).foldl Cadical.pushConstraint c) ≠ [] := by
  rw [Cadical.foldl_pushConstraint c hq, begunConstraint, Cadical.openConstraint]
  have hne : (x :: q) ≠ [] := List.cons_ne_nil x q
  have hlast : (c.beginConstraint (x :: q)).constraint.getLast? ≠ some 0 := by
    change (_ ++ (x :: q)).getLast? ≠ some 0
    rw [List.getLast?_append, List.getLast?_eq_some_getLast hne]
    simpa using hq _ (List.getLast_mem hne)
  simp only [hlast, if_false]
  exact List.append_ne_nil_of_right_ne_nil _ hne

theorem untouched_stopConstrain {s : Session} (hs : RangesKnown s) {q : List ℤ} {l : ℤ}
    (hnz : ∀ x ∈ q, x ≠ 0) (hl : s.solver.accepts l = false) :
    Untouched s (s.withHandle ((Handle.invalidate s.handle).withSolver
        ((q.foldl Cadical.pushConstraint s.solver).stopConstrain l))) ↔
      nothingBegun s ∧ q.map Demand.constrain = [] ∧ savesRefused s.solver (.constrain l) = false := by
  have horiginal : ((q.foldl Cadical.pushConstraint s.solver).stopConstrain l).original = s.solver.original := by
    have hfold : (q.foldl Cadical.pushConstraint s.solver).original = s.solver.original := by
      cases q with
      | nil => rfl
      | cons x q =>
        rw [Cadical.foldl_pushConstraint s.solver hnz]
        rfl
    rw [Cadical.stopConstrain]
    split
    · exact hfold
    · exact hfold
  rw [List.map_eq_nil_iff]
  cases q with
  | nil =>
    constructor
    · intro h
      have hbegun : begunOriginal s.solver = [] := by
        rw [begunOriginal, ← horiginal]
        exact h.begun.original
      exact ⟨⟨h.clause ▸ h.begun.clause, h.constraint ▸ h.begun.constraint, hbegun⟩, rfl, rfl⟩
    · rintro ⟨hbegun, -⟩
      change Untouched s (s.withHandle ((Handle.invalidate s.handle).withSolver
        (s.solver.stopConstrain l)))
      rw [Cadical.stopConstrain]
      split
      · next hu =>
        have hm : s.solver.molten l = true := by
          rw [Cadical.accepts, hu, Bool.true_and] at hl
          simpa using hl
        have hc : begunConstraint s.solver.transitionToSteadyState.openConstraint = [] := by
          rw [begunConstraint_open, begunConstraint_transition hbegun.constraint]
        exact ⟨rfl, rfl, hc.trans hbegun.constraint.symm, rfl, ⟨hbegun.clause, hc, hbegun.original⟩,
          hs.molten_known hm, rfl⟩
      · exact ⟨rfl, rfl, rfl, rfl, ⟨hbegun.clause, hbegun.constraint, hbegun.original⟩, rfl, rfl⟩
  | cons x q =>
    constructor
    · intro h
      have hstate : ((x :: q).foldl Cadical.pushConstraint s.solver).state.ended = false := by
        rw [Cadical.foldl_pushConstraint s.solver hnz]
        rfl
      have hbegun := h.begun.constraint
      change begunConstraint (((x :: q).foldl Cadical.pushConstraint s.solver).stopConstrain l) = []
        at hbegun
      rw [begunConstraint_stop hstate] at hbegun
      exact absurd hbegun (begunConstraint_foldl hnz)
    · rintro ⟨-, hnil, -⟩
      cases hnil

/-! ## Every call -/

section Calls
variable {s : Session}

theorem allOrNothing_add (hs : RangesKnown s) (x : RArg) :
    AllOrNothing s (.add x) ↔ TakenWhole s (.add x) := by
  rcases hs.settled.valid_or_solving with hv | hsolving
  · rcases satAdd_cases hv x with
      ⟨e, hh, h⟩ | ⟨cls, hh, hall, h⟩ | ⟨cls, done, q, l, e, hh, hstop, -, -, h⟩
    · exact allOrNothing_refused (run_unit h) (by rw [demands, hh]; rfl)
    · exact allOrNothing_accepted (run_unit h) (by rw [demands, hh]; rfl) (grants_clauses hv hall)
    · obtain ⟨later, hdemands⟩ := hstop.demands
      have hds : demands s (.add x) =
          .ok ((done.flatMap clauseDemands ++ q.map Demand.add) ++ .add l :: later) := by
        rw [demands, hh, ← hdemands]
        rfl
      exact allOrNothing_stopped (run_unit h) hds (hstop.granted hv) (hstop.refused (addHands_ok hh).2.2)
        (untouched_stoppedAt hs hv hstop)
  · rcases satAdd_cases_solving hsolving x with ⟨e, hh, h⟩ | ⟨hh, h⟩ | ⟨cls, hh, hne, h⟩
    · exact allOrNothing_refused (run_unit h) (by rw [demands, hh]; rfl)
    · exact allOrNothing_accepted (run_unit h) (by rw [demands, hh]; rfl) (by simp)
    · exact allOrNothing_solving hsolving (run_unit h) rfl rfl (by rw [demands, hh]; rfl)
        (mt flatMap_clauseDemands_eq_nil.mp hne)

theorem allOrNothing_cardinality (hs : RangesKnown s) (b : Bound) (literals k encoding : RValue) :
    AllOrNothing s (.cardinality b literals k encoding) ↔
      TakenWhole s (.cardinality b literals k encoding) := by
  rcases hs.settled.valid_or_solving with hv | hsolving
  · rcases satCardinality_cases hv b literals k encoding with
      ⟨e, hh, h⟩ | ⟨a, hh, hall, h⟩ | ⟨a, done, q, l, e, hh, hstop, -, -, h⟩
    · exact allOrNothing_refused (run_unit h) (by rw [demands, hh]; rfl)
    · exact allOrNothing_accepted (run_unit h) (by rw [demands, hh]; rfl) (grants_clauses hv hall)
    · obtain ⟨later, hdemands⟩ := hstop.demands
      have hds : demands s (.cardinality b literals k encoding) =
          .ok ((done.flatMap clauseDemands ++ q.map Demand.add) ++ .add l :: later) := by
        rw [demands, hh, ← hdemands]
        rfl
      exact allOrNothing_stopped (run_unit h) hds (hstop.granted hv) (hstop.refused (cardHands_ok hh).clauses)
        (untouched_stoppedAt hs hv hstop)
  · rcases satCardinality_cases_solving hsolving b literals k encoding with
      ⟨e, hh, h⟩ | ⟨a, hh, hnil, -, h⟩ | ⟨a, hh, hne, h⟩
    · exact allOrNothing_refused (run_unit h) (by rw [demands, hh]; rfl)
    · have hds : demands s (.cardinality b literals k encoding) = .ok [] := by
        rw [demands, hh, ← flatMap_clauseDemands_eq_nil.mpr hnil]
        rfl
      exact allOrNothing_accepted (run_unit h) hds (by simp)
    · exact allOrNothing_solving hsolving (run_unit h) rfl rfl (by rw [demands, hh]; rfl)
        (mt flatMap_clauseDemands_eq_nil.mp hne)

theorem allOrNothing_constrain (hs : RangesKnown s) (v : RValue) :
    AllOrNothing s (.constrain v) ↔ TakenWhole s (.constrain v) := by
  rcases hs.settled.valid_or_solving with hv | hsolving
  · have hgrants : ∀ l, s.solver.accepts l = true → grants s.solver (.constrain l) = true := fun l hl => by
      rw [grants, hv, hl, Bool.or_true, Bool.and_true]
    rcases satConstrain_cases hv v with
      ⟨e, hh, h⟩ | ⟨p, hh, hall, h⟩ | ⟨p, q, l, r, e, hh, rfl, hq, hl, -, -, h⟩
    · exact allOrNothing_refused (run_unit h) (by rw [demands, hh]; rfl)
    · refine allOrNothing_accepted (run_unit h) (by rw [demands, hh]; rfl) fun d hd => ?_
      rcases List.mem_append.mp hd with hd | hd
      · obtain ⟨l, hl, rfl⟩ := List.mem_map.mp hd
        exact hgrants l (hall l hl)
      · rw [List.mem_singleton.mp hd, grants, hv]
        rfl
    · have hvalid := (constrainHands_ok hh).2.2
      have hl0 : (l == 0) = false := beq_eq_false_iff_ne.mpr (hvalid l (by simp)).1
      have hnz : ∀ x ∈ q, x ≠ 0 := fun x hx => (hvalid x (List.mem_append_left _ hx)).1
      have hsplit : demands s (.constrain v) = .ok (q.map .constrain ++ .constrain l ::
          (r.map .constrain ++ [.constrain 0])) := by
        rw [demands, hh]
        simp [Except.map]
      refine allOrNothing_stopped (run_unit h) hsplit ?_ ?_ (untouched_stopConstrain hs hnz hl)
      · rintro d hd
        obtain ⟨x, hx, rfl⟩ := List.mem_map.mp hd
        exact hgrants x (hq x hx)
      · rw [grants, hl0, hl, Bool.or_false, Bool.and_false]
  · rcases satConstrain_cases_solving hsolving v with ⟨e, hh, h⟩ | ⟨p, hh, h⟩
    · exact allOrNothing_refused (run_unit h) (by rw [demands, hh]; rfl)
    · exact allOrNothing_solving hsolving (run_unit h) rfl rfl (by rw [demands, hh]; rfl) (by simp)

theorem allOrNothing_reserve (hs : RangesKnown s) (n : RValue) :
    AllOrNothing s (.reserve n) ↔ TakenWhole s (.reserve n) := by
  rcases hs.settled.valid_or_solving with hv | hsolving
  · rcases satReserve_cases hv n with ⟨e, hh, h⟩ | ⟨m, hh, -, h⟩
    · exact allOrNothing_refused (run_unit h) (by rw [demands, hh]; rfl)
    · have hds : demands s (.reserve n) = .ok (if s.solver.maxVar < m then [.declare] else []) := by
        rw [demands, hh]
        rfl
      refine allOrNothing_accepted (run_unit h) hds fun d hd => ?_
      split at hd
      · rw [List.mem_singleton.mp hd, grants, hv]
      · cases hd
  · rcases satReserve_cases_solving hsolving n with ⟨e, hh, h⟩ | ⟨m, hh, hle, h⟩ | ⟨m, hh, hlt, h⟩
    · exact allOrNothing_refused (run_unit h) (by rw [demands, hh]; rfl)
    · have hds : demands s (.reserve n) = .ok [] := by
        rw [demands, hh]
        change Except.ok (if s.solver.maxVar < m then _ else _) = _
        rw [if_neg (Nat.not_lt.mpr hle)]
      exact allOrNothing_accepted (run_unit h) hds (by simp)
    · have hds : demands s (.reserve n) = .ok [.declare] := by
        rw [demands, hh]
        change Except.ok (if s.solver.maxVar < m then _ else _) = _
        rw [if_pos hlt]
      exact allOrNothing_solving hsolving (run_unit h) rfl rfl hds (by simp)

end Calls

/-- In every reachable session, a call that changes the formula does so whole or not at all exactly
when CaDiCaL grants all it demands, or nothing was begun before and the first demand is refused unsaved. -/
theorem all_or_nothing_iff (cs : List Call) (c : Call) (hc : changesFormula c) :
    AllOrNothing (after cs) c ↔ TakenWhole (after cs) c := by
  have hs := rangesKnown_after cs
  cases c with
  | add x => exact allOrNothing_add hs x
  | constrain v => exact allOrNothing_constrain hs v
  | cardinality b literals k encoding => exact allOrNothing_cardinality hs b literals k encoding
  | reserve n => exact allOrNothing_reserve hs n
  | _ => exact hc.elim

theorem all_or_nothing_iff_fresh :
    changesFormula (.add (.list [.ints [1, -2], .ints [2]])) ∧
      AllOrNothing (after []) (.add (.list [.ints [1, -2], .ints [2]])) := by
  have hwhole : TakenWhole (after []) (.add (.list [.ints [1, -2], .ints [2]])) := by
    refine Or.inl (?_ : ∀ d ∈ [[1, -2], [2]].flatMap clauseDemands, grants new.solver d = true)
    decide
  exact ⟨trivial, (all_or_nothing_iff [] (.add _) trivial).mpr hwhole⟩

/-- Declared variables are asked for and one is declared. -/
def declaringOne : List Call := [.setOption [some "factorcheck"] (.ints [2]), .reserve (.ints [1])]

/-- A clause over a declared and an undeclared variable is then left begun. -/
theorem half_clause_left_begun :
    changesFormula (.add (.value (.ints [1, 2]))) ∧
      ¬AllOrNothing (after declaringOne) (.add (.value (.ints [1, 2]))) ∧
      (step (after declaringOne) (.add (.value (.ints [1, 2])))).2.solver.clause = [1] := by
  refine ⟨trivial, fun h => ?_, rfl⟩
  have hclause : [1] = ([] : List ℤ) := (h _ rfl).clause
  cases hclause

/-- Results are checked, and the search has made the literal 1 molten. -/
def checkingFrozen : List Call :=
  [.setOption [some "check"] (.ints [1]), .setOption [some "checkfrozen"] (.ints [1]), .add (.value (.ints [1])),
    .solve (.ints []) (fun _ => ⟨.sat, false, fun _ => true, fun _ => false, false, 0, .unsat⟩)]

/-- A molten literal stays begun in what is saved for the checks, and nowhere else. -/
example : (step (after checkingFrozen) (.add (.value (.ints [1])))).2.solver.original = [1, 0, 1] ∧
    (step (after checkingFrozen) (.add (.value (.ints [1])))).2.solver.clause = [] ∧
    ¬AllOrNothing (after checkingFrozen) (.add (.value (.ints [1]))) := by
  refine ⟨rfl, rfl, fun h => ?_⟩
  have horiginal : [1, 0, 1] = [(1 : ℤ), 0] := (h _ rfl).original
  cases horiginal

end Session
end Zusat
