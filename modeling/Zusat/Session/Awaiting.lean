import Zusat.Session.Meaning
import Zusat.Session.Solutions

/-! # Sessions between two calls

On a solver whose `factor`, `factorcheck`, `checkfrozen` and `check` are left at their defaults no call of a
run is stopped half way by CaDiCaL. `Awaiting s w` is what then holds between any two calls: no clause is begun,
nothing is assumed, and `w` is the constraint that waits for the next search. -/

namespace Zusat
open Foundations Foundations.Prog
set_option autoImplicit false

namespace Session

/-- The call sets none of the four options and does not enumerate over all variables. -/
def ordinary (c : Call) : Prop :=
  leavesFactor c ∧ ¬setsOption c "checkfrozen" ∧ ¬setsOption c "check" ∧ ¬defaultProjection c

/-- The constraint that waits after a call. -/
def waitingAfter (s : Session) (w : Option (List ℤ)) : Call → Option (List ℤ)
  | .constrain v =>
    match constrainHands s.aux v with
    | .ok p => some p
    | .error _ => w
  | .solve v _ =>
    match solveHands s.aux v with
    | .ok _ => none
    | .error _ => w
  | .simplify _ => none
  | _ => w

/-- The constraint that waits after a run, when `w` waited before it. -/
def waitingFrom (s : Session) (w : Option (List ℤ)) : List Call → Option (List ℤ)
  | [] => w
  | c :: cs => waitingFrom (step s c).2 (waitingAfter s w c) cs

/-- The constraint the next search of a run would find. -/
def waiting (cs : List Call) : Option (List ℤ) := waitingFrom new none cs

/-- Nothing is assumed, and `w` is the constraint the next search would find. -/
structure Rests (h : Handle) (w : Option (List ℤ)) : Prop where
  ready : h.solver.state.ready = true
  assumptions : h.solver.transitionToSteadyState.assumptions = []
  constraint : h.solver.transitionToSteadyState.constraint = Handle.inForce w
  pending : h.constraintPending = w.isSome

structure Awaiting (s : Session) (w : Option (List ℤ)) : Prop where
  plain : Plain s
  rests : Rests s.handle w
  lits : ∀ p, w = some p → ∀ l ∈ p, ValidLit l

theorem awaiting_new : Awaiting new none := by
  refine ⟨plain_new, ⟨rfl, rfl, rfl, rfl⟩, fun p h => ?_⟩
  cases h

/-! ## The handle -/

section Rests
variable {h h' : Handle} {w : Option (List ℤ)}

theorem Rests.of_core (hr : Rests h w) (hcore : Handle.core h' = Handle.core h) : Rests h' w := by
  have hsolver : Handle.coreSolver h'.solver = Handle.coreSolver h.solver :=
    congrArg Handle.solver hcore
  constructor
  · exact (congrArg (fun c : Cadical => c.state.ready) hsolver).trans hr.ready
  · exact (congrArg (fun c : Cadical => c.transitionToSteadyState.assumptions) hsolver).trans
      hr.assumptions
  · exact (congrArg (fun c : Cadical => c.transitionToSteadyState.constraint) hsolver).trans
      hr.constraint
  · exact (congrArg Handle.constraintPending hcore).trans hr.pending

theorem Rests.addedTo (hr : Rests h w) (cl : List ℤ) : Rests (Handle.addedTo h cl) w :=
  ⟨rfl, hr.assumptions, hr.constraint, hr.pending⟩

theorem Rests.foldl_addedTo (hr : Rests h w) (cls : List (List ℤ)) :
    Rests (cls.foldl Handle.addedTo h) w := by
  induction cls generalizing h with
  | nil => exact hr
  | cons cl cls ih => exact ih (hr.addedTo cl)

theorem Rests.reserved (hr : Rests h w) (n : ℕ) : Rests (Handle.reserved h n) w := by
  unfold Handle.reserved
  split
  · exact ⟨rfl, hr.assumptions, hr.constraint, hr.pending⟩
  · exact hr

theorem Rests.constrainedBy (hr : Rests h w) (p : List ℤ) : Rests (constrainedBy h p) (some p) := by
  refine ⟨rfl, hr.assumptions, ?_, rfl⟩
  change (if h.solver.transitionToSteadyState.constraint.getLast? = some 0 then []
    else h.solver.transitionToSteadyState.constraint) ++ _ = _
  rw [hr.constraint, Handle.open_inForce]
  rfl

/-- A search uses up what it found. -/
theorem rests_finish (h₀ : Handle) (a : Answer) (pre : Bool) (ask : Oracle) (c : Cadical) :
    Rests (Handle.finish h₀ a (Cadical.afterSearch pre ask c)) none := by
  have hended : (ask c.startSearch).res.state.ended = true := by
    cases (ask c.startSearch).res <;> rfl
  refine ⟨?_, if_pos hended, if_pos hended, rfl⟩
  change (ask c.startSearch).res.state.ready = true
  cases (ask c.startSearch).res <;> rfl

end Rests

/-! ## Nothing stops a plain solver -/

section Plain
variable {s s' : Session} {w : Option (List ℤ)}

theorem Plain.of_change {K L : ℤ → Prop} {N : String → Prop} (hs : Plain s) (haux : s'.aux = s.aux)
    (hchange : Cadical.Change K L N s.solver s'.solver)
    (hN : ¬N "factor" ∧ ¬N "factorcheck" ∧ ¬N "checkfrozen" ∧ ¬N "check") (hclause : s'.solver.clause = []) :
    Plain s' where
  ranges := hs.ranges.of_keeps haux hchange
  off := hs.off.change hchange hN.1 hN.2.1
  frozen := (hchange.opts _ hN.2.2.1).trans hs.frozen
  unchecked := (hchange.opts _ hN.2.2.2).trans hs.unchecked
  clause := hclause
  known cl hcl l hl := by
    obtain ⟨new, hnew, hfrom⟩ := hchange.clauses
    rw [hnew] at hcl
    rcases List.mem_append.mp hcl with hcl | hcl
    · exact le_trans (hs.known cl hcl l hl) hchange.maxVar
    · rcases hfrom cl hcl l hl with rfl | hmem | ⟨-, hle⟩
      · exact Nat.zero_le _
      · rw [hs.clause] at hmem
        cases hmem
      · exact hle

theorem Awaiting.same {t : Session} (hs : Awaiting s w) (h : t = s) : Awaiting t w := by
  rw [h]
  exact hs

theorem Awaiting.notAdding (hs : Awaiting s w) : s.solver.state ≠ .adding :=
  (Handle.ready_iff.mp hs.rests.ready).2

theorem Awaiting.clause_step {c : Call} (hs : Awaiting s w) (hc : ordinary c)
    (hclause : (step s c).2.solver.clause = []) : Plain (step s c).2 := by
  have hchange := step_change hs.plain.ranges.settled c
  refine ⟨rangesKnown_step hs.plain.ranges c, hs.plain.off.change hchange hc.1.1 hc.1.2,
    (hchange.opts _ hc.2.1).trans hs.plain.frozen, (hchange.opts _ hc.2.2.1).trans hs.plain.unchecked, hclause, fun cl hcl => ?_⟩
  have hknown : Known s := by
    intro cl hcl l hl
    rcases List.mem_cons.mp hcl with rfl | hcl
    · rw [hs.plain.clause] at hl
      cases hl
    · exact hs.plain.known cl hcl l hl
  exact known_step hs.plain.ranges hknown c cl (List.mem_cons_of_mem _ hcl)

end Plain

/-! ## Calls that leave the formula alone -/

/-- The call reads, or it is about options, limits or the proof. -/
def quietCall : Call → Prop
  | .getOption _ => True
  | .setOption .. => True
  | .limit .. => True
  | .value _ => True
  | .valueAll => True
  | .failed _ => True
  | .constraintFailed => True
  | .fixed .. => True
  | .conclude => True
  | .traceProof .. => True
  | .closeProof => True
  | _ => False

/-- A program on sessions that keeps the core of the handle. -/
abbrev KeepsCore {α : Type} (m : SessionM α) : Prop :=
  Respects (Through fun h h' => Handle.core h' = Handle.core h) m

theorem along_core : Along (Through fun h h' => Handle.core h' = Handle.core h)
    (fun _ : RError => Through fun h h' => Handle.core h' = Handle.core h) :=
  along_view fun s : Session => Handle.core s.handle

theorem keepsCore_looks {α : Type} {m : SessionM α} (hm : Cadical.Looks m) : KeepsCore m := by
  apply respects_of_snd
  intro s
  rw [hm.snd s]
  exact along_core.refl s

theorem keepsCore_onHandle {α : Type} {m : HandleM α} (hm : Handle.Quiet m) : KeepsCore (onHandle m) :=
  Entrywise.follows_onHandle hm

theorem keepsCore_exported {c : Call} (hc : quietCall c) : KeepsCore (exported c) := by
  have law := along_core
  have hreads : ∀ {α : Type} (x : Except RError α), KeepsCore (ofExcept x : SessionM α) :=
    fun x => keepsCore_looks (Handle.looks_ofExcept x)
  cases c with
  | getOption name =>
    exact law.bind (keepsCore_looks (looks_satGetOption name)) fun _ => law.pure _
  | setOption name v =>
    apply law.bind _ fun _ => law.pure _
    exact law.bind (hreads _) fun _ => law.bind (hreads _) fun _ => law.bind law.read fun _ =>
      law.bind (law.require law.refl) fun _ => keepsCore_onHandle (Handle.quiet_zusatSetOption _ _)
  | limit name v =>
    apply law.bind _ fun _ => law.pure _
    exact law.bind (hreads _) fun _ => law.bind (hreads _) fun _ =>
      keepsCore_onHandle (Handle.quiet_zusatLimit _ _)
  | value vars => exact law.bind (keepsCore_looks (looks_satValue vars)) fun _ => law.pure _
  | valueAll => exact law.bind (keepsCore_looks looks_satValueAll) fun _ => law.pure _
  | failed as =>
    apply law.bind _ fun _ => law.pure _
    exact law.bind (hreads _) fun _ => keepsCore_looks (looks_onHandle (Handle.looks_zusatFailed _))
  | constraintFailed =>
    exact law.bind (keepsCore_looks (looks_onHandle Handle.looks_zusatConstraintFailed))
      fun _ => law.pure _
  | fixed ls root =>
    apply law.bind _ fun _ => law.pure _
    exact law.bind (hreads _) fun _ => keepsCore_looks (looks_onHandle (Handle.looks_zusatFixed _ root))
  | conclude =>
    exact law.bind (keepsCore_looks (looks_onHandle Handle.looks_zusatConclude)) fun _ => law.pure _
  | traceProof path format binary canOpen =>
    exact law.bind (quiet_satTraceProof path format binary canOpen) fun _ => law.pure _
  | closeProof =>
    exact law.bind (keepsCore_onHandle Handle.quiet_zusatCloseProof) fun _ => law.pure _
  | _ => exact hc.elim

theorem core_step {c : Call} (hc : quietCall c) (s : Session) :
    Handle.core (step s c).2.handle = Handle.core s.handle := (keepsCore_exported hc).snd s

/-! ## One call -/

section Step
variable {s : Session} {w : Option (List ℤ)}

/-- A solve is refused for its assumptions, or it searches. -/
theorem Awaiting.solve_cases (hs : Awaiting s w) (v : RValue) (ask : Oracle) :
    (∃ e, solveHands s.aux v = .error e ∧ (satSolve v ask).run s = (.error e, s)) ∨
      ∃ p, solveHands s.aux v = .ok p ∧ (satSolve v ask).run s =
        if (answerOf s.solver p ask).interrupted then
          (.error (.stop "solve interrupted"), s.withHandle (searched s.handle p ask))
        else (newSolution (answerOf s.solver p ask).res).run
          (s.withHandle (searched s.handle p ask)) := by
  rcases satSolve_cases hs.plain.valid v ask with
    h | ⟨p, hh, -, -, -, h⟩ | ⟨p, q, l, r, e, hh, hp, -, hl, -⟩ | ⟨-, ha, -⟩ | ⟨p, e, -, -, -, hcheck, -⟩
  · exact .inl h
  · exact .inr ⟨p, hh, h⟩
  · have hvalid := (solveHands_ok hh).2.2 l (by simp [hp])
    rw [accepts_of_valid hs.plain.off hs.plain.frozen hvalid] at hl
    cases hl
  · exact absurd ha hs.notAdding
  · have hoff : (assuming s.solver p).opts "check" = 0 := by
      rw [assuming_opts]
      exact hs.plain.unchecked
    rw [Cadical.searchCheck_off hoff] at hcheck
    cases hcheck

/-- A constraint is refused, or it waits from now on. -/
theorem Awaiting.constrain_cases (hs : Awaiting s w) (v : RValue) :
    (∃ e, constrainHands s.aux v = .error e ∧ (satConstrain v).run s = (.error e, s)) ∨
      ∃ p, constrainHands s.aux v = .ok p ∧
        (satConstrain v).run s = (.ok (), s.withHandle (constrainedBy s.handle p)) := by
  rcases satConstrain_cases hs.plain.valid v with
    h | ⟨p, hh, -, h⟩ | ⟨p, q, l, r, e, hh, hp, -, hl, -⟩
  · exact .inl h
  · exact .inr ⟨p, hh, h⟩
  · have hvalid := (constrainHands_ok hh).2.2 l (by simp [hp])
    rw [accepts_of_valid hs.plain.off hs.plain.frozen hvalid] at hl
    cases hl

theorem searched_solve (s : Session) (p : List ℤ) (ask : Oracle) :
    ((if (answerOf s.solver p ask).interrupted then
        ((.error (.stop "solve interrupted"), s.withHandle (searched s.handle p ask)) :
          Except RError Solution × Session)
      else (newSolution (answerOf s.solver p ask).res).run
        (s.withHandle (searched s.handle p ask)))).2 = s.withHandle (searched s.handle p ask) := by
  split
  · rfl
  · exact (looks_newSolution _).snd _

theorem step_solve_snd (s : Session) (v : RValue) (ask : Oracle) :
    (step s (.solve v ask)).2 = ((satSolve v ask).run s).2 :=
  congrArg Prod.snd (run_bind_pure _ _ s)

theorem Awaiting.solve (hs : Awaiting s w) (v : RValue) (ask : Oracle) :
    Awaiting (step s (.solve v ask)).2 (waitingAfter s w (.solve v ask)) := by
  have hplain := plain_step hs.plain (c := .solve v ask) trivial
  rw [step_solve_snd] at hplain ⊢
  unfold waitingAfter
  rcases hs.solve_cases v ask with ⟨e, hh, hrun⟩ | ⟨p, hh, hrun⟩
  · simp only [hh, hrun]
    exact hs
  · simp only [hh]
    refine ⟨hplain, ?_, fun q hq => by cases hq⟩
    rw [hrun, searched_solve]
    exact rests_finish _ _ _ _ _

theorem Awaiting.simplify (hs : Awaiting s w) (ask : Oracle) :
    Awaiting (step s (.simplify ask)).2 none := by
  refine ⟨plain_step hs.plain (c := .simplify ask) trivial, ?_, fun q hq => by cases hq⟩
  have hcheck := Cadical.searchCheck_off (c := s.solver.limitRounds) hs.plain.unchecked true ask
  have hrun := run_onHandle (Handle.run_zusatSimplify hs.plain.valid hs.notAdding hcheck)
  rw [show (step s (.simplify ask)).2 = _ from congrArg Prod.snd (run_bind_pure _ _ s), satSimplify,
    hrun]
  exact rests_finish _ _ _ _ _

theorem Awaiting.constrain (hs : Awaiting s w) (v : RValue) :
    Awaiting (step s (.constrain v)).2 (waitingAfter s w (.constrain v)) := by
  have hord : ordinary (.constrain v) := ⟨⟨not_false, not_false⟩, not_false, not_false, not_false⟩
  unfold waitingAfter
  rcases hs.constrain_cases v with ⟨e, hh, hrun⟩ | ⟨p, hh, hrun⟩
  · have hstep : step s (.constrain v) = _ := run_unit hrun
    simp only [hh, hstep]
    exact hs
  · have hstep : step s (.constrain v) = _ := run_unit hrun
    have hclause : (step s (.constrain v)).2.solver.clause = [] := by
      rw [hstep]
      exact hs.plain.clause
    simp only [hh]
    refine ⟨hs.clause_step hord hclause, ?_, ?_⟩
    · rw [hstep]
      exact hs.rests.constrainedBy p
    · rintro q ⟨rfl⟩
      exact (constrainHands_ok hh).2.2

theorem Awaiting.quiet (hs : Awaiting s w) {c : Call} (hc : ordinary c) (hq : quietCall c) :
    Awaiting (step s c).2 w := by
  have hcore := core_step hq s
  have hclause : (step s c).2.solver.clause = [] :=
    (congrArg (·.solver.clause) hcore).trans hs.plain.clause
  exact ⟨hs.clause_step hc hclause, hs.rests.of_core hcore, hs.lits⟩

theorem Awaiting.adding (hs : Awaiting s w) (x : RArg) : Awaiting (step s (.add x)).2 w := by
  refine ⟨plain_step hs.plain (c := .add x) trivial, ?_, hs.lits⟩
  rcases satAdd_cases hs.plain.valid x with
    ⟨e, -, h⟩ | ⟨cls, hh, -, h⟩ | ⟨cls, done, q, l, e, hh, hstop, -, -, -⟩
  · rw [show step s (.add x) = _ from run_unit h]
    exact hs.rests
  · rw [show step s (.add x) = _ from run_unit h]
    exact hs.rests.foldl_addedTo cls
  · exact (not_stopsAt hs.plain.off hs.plain.frozen (addHands_ok hh).2.2 hstop).elim

theorem Awaiting.cardinality (hs : Awaiting s w) (b : Bound) (literals k e : RValue) :
    Awaiting (step s (.cardinality b literals k e)).2 w := by
  refine ⟨plain_step hs.plain (c := .cardinality b literals k e) trivial, ?_, hs.lits⟩
  rcases satCardinality_cases hs.plain.valid b literals k e with
    ⟨err, -, h⟩ | ⟨a, hh, -, h⟩ | ⟨a, done, q, l, err, hh, hstop, -, -, -⟩
  · rw [show step s (.cardinality b literals k e) = _ from run_unit h]
    exact hs.rests
  · rw [show step s (.cardinality b literals k e) = _ from run_unit h]
    have hhandle : (encodedBy s a).handle = a.2.2.clauses.foldl Handle.addedTo s.handle := by
      rw [encodedBy, recordAux]
      split <;> rfl
    change Rests (encodedBy s a).handle w
    rw [hhandle]
    exact hs.rests.foldl_addedTo _
  · exact (not_stopsAt hs.plain.off hs.plain.frozen (cardHands_ok hh).clauses hstop).elim

theorem Awaiting.reserve (hs : Awaiting s w) (n : RValue) : Awaiting (step s (.reserve n)).2 w := by
  refine ⟨plain_step hs.plain (c := .reserve n) trivial, ?_, hs.lits⟩
  rcases satReserve_cases hs.plain.valid n with ⟨e, -, h⟩ | ⟨m, -, -, h⟩
  · rw [show step s (.reserve n) = _ from run_unit h]
    exact hs.rests
  · rw [show step s (.reserve n) = _ from run_unit h]
    exact hs.rests.reserved m

end Step

theorem Awaiting.holds {s : Session} (hs : Awaiting s none) : Holds s s.solver.clauses where
  ready := hs.rests.ready
  off := hs.plain.off
  clauses := rfl
  clause := hs.plain.clause
  known := hs.plain.known
  assumptions := hs.rests.assumptions
  constraint := fun _ => hs.rests.constraint

/-! ## Enumerations -/

section Rounds
variable {t : Session} {r : Request}

theorem Awaiting.armed (ht : Awaiting t none) {con : Option (List ℤ)}
    (hcon : ∀ p, con = some p → ∀ l ∈ p, ValidLit l) : Awaiting (armed t con) con := by
  have hchange := change_armed (K := fun _ => True) (L := fun _ => True) (N := fun _ => False)
    ht.plain.ranges.settled fun p hp l hl => ⟨hcon p hp l hl, trivial⟩
  have hclause : (Session.armed t con).solver.clause = [] :=
    (armed_clauses t con).2.trans ht.plain.clause
  refine ⟨ht.plain.of_change (armed_aux t con) hchange ⟨not_false, not_false, not_false, not_false⟩ hclause, ?_,
    hcon⟩
  cases con with
  | none => exact ht.rests
  | some p => exact ht.rests.constrainedBy p

theorem Awaiting.run_arm (ht : Awaiting t none) {con : Option (List ℤ)}
    (hcon : ∀ p, con = some p → ∀ l ∈ p, ValidLit l) :
    (doIf con.isSome (onHandle (Handle.zusatConstrain (.int (con.getD []))))).run t =
      (.ok (), Session.armed t con) := by
  cases con with
  | none => rfl
  | some p =>
    rcases Handle.run_zusatConstrain ht.plain.valid (hcon p rfl) with
      ⟨-, hrun⟩ | ⟨q, l, r, e, hp, -, hl, -⟩
    · exact run_onHandle hrun
    · have hvalid := hcon p rfl l (by simp [hp])
      have htakes := accepts_of_valid ht.plain.off ht.plain.frozen hvalid
      exact absurd (htakes.symm.trans hl) (by decide)

theorem Awaiting.asked (ht : Awaiting t none) (hr : r.Checked t.aux) (ask : Oracle) :
    Awaiting (asked t r ask) none := by
  have hchange := change_asked (K := fun _ => True) (L := fun _ => True) (N := fun _ => False)
    ht.plain.ranges.settled (r := r) (fun p hp l hl => ⟨hr.constraint p hp l hl, trivial⟩)
    (fun _ _ => trivial) ask
  have hclause : (Session.asked t r ask).solver.clause = [] :=
    (asked_clauses t r ask).2.trans ht.plain.clause
  exact ⟨ht.plain.of_change (asked_aux t r ask) hchange ⟨not_false, not_false, not_false, not_false⟩ hclause,
    rests_finish _ _ _ _ _, fun p hp => by cases hp⟩

theorem Awaiting.withClause (ht : Awaiting t none) (cl : List ℤ) : Awaiting (withClause t cl) none := by
  have hchange := Cadical.change_takeClause (K := fun _ => True) (L := fun _ => True)
    (N := fun _ => False) ht.plain.ranges.settled (p := cl) fun _ _ => trivial
  exact ⟨ht.plain.of_change rfl hchange ⟨not_false, not_false, not_false, not_false⟩ rfl, ht.rests.addedTo cl,
    fun p hp => by cases hp⟩

/-- A round ends where its search has returned, or hands on to the rest of the loop with one clause
more. -/
theorem Awaiting.round (ht : Awaiting t none) (hr : r.Checked t.aux) (ask : Oracle)
    (again : Enumeration → SessionM Enumeration) (st : Enumeration) :
    ((satSolutionsRound r.vars r.assumptions r.constraint ask again st).run t).2 =
        Session.asked t r ask ∨
      ∃ st' cl, (satSolutionsRound r.vars r.assumptions r.constraint ask again st).run t =
        (again st').run (Session.withClause (Session.asked t r ask) cl) := by
  have harmed := ht.armed hr.constraint
  have hasked := ht.asked hr ask
  have hsolve : ((satSolve (.ints r.assumptions) ask).run (Session.armed t r.constraint)).2 =
      Session.asked t r ask := by
    have hhands := solveHands_checked hr
    rcases harmed.solve_cases (.ints r.assumptions) ask with ⟨e, hh, -⟩ | ⟨p, hh, hrun⟩
    · rw [hhands] at hh
      cases hh
    · rw [hhands] at hh
      obtain rfl := Except.ok.inj hh
      rw [hrun, searched_solve]
      rfl
  rw [satSolutionsRound, run_bind, ht.run_arm hr.constraint, andThen_ok, run_bind]
  rcases hrun : (satSolve (.ints r.assumptions) ask).run (Session.armed t r.constraint) with ⟨res, t'⟩
  rw [hrun] at hsolve
  obtain rfl : t' = Session.asked t r ask := hsolve
  cases res with
  | error e => exact .inl rfl
  | ok sol =>
    rw [andThen_ok]
    split
    · exact .inl rfl
    · rw [run_bind, run_satNVars (.inl hasked.plain.valid), andThen_ok, run_bind]
      rcases hread : (satValue (.ints (r.vars.getD (seqLen (Session.asked t r ask).solver.maxVar)))).run
        (Session.asked t r ask) with ⟨value, t'⟩
      obtain rfl := (looks_satValue _).of_run hread
      cases value with
      | error e => exact .inl rfl
      | ok value =>
        rw [andThen_ok]
        split
        · exact .inl rfl
        · have hvs : ∀ v ∈ r.vars.getD (seqLen (Session.asked t r ask).solver.maxVar),
              ValidLit v := by
            rw [satValue, run_bind] at hread
            cases hvars : asVariables "vars"
                (.ints (r.vars.getD (seqLen (Session.asked t r ask).solver.maxVar))) with
            | error e =>
              rw [hvars] at hread
              cases hread
            | ok vs =>
              simp only [asVariables] at hvars
              split at hvars
              · cases hvars
              · next ls hls =>
                obtain rfl := asLiterals_ints_ok hls
                exact asLiterals_valid hls
          have hblock := blockingClause_valid hvs (value.map fun b => b.getD false)
          rw [run_bind]
          rcases run_addClauses hasked.plain.valid
            (fun cl hcl => by rw [List.mem_singleton.mp hcl]; exact hblock) with
            ⟨-, hadd⟩ | ⟨done, q, l, e, hstop, -⟩
          · rw [hadd, andThen_ok]
            exact .inr ⟨_, _, rfl⟩
          · refine (not_stopsAt hasked.plain.off hasked.plain.frozen (fun cl hcl => ?_) hstop).elim
            rw [List.mem_singleton.mp hcl]
            exact hblock

theorem Awaiting.solutions {s : Session} {w : Option (List ℤ)} (hs : Awaiting s w)
    (limit vars as con : RValue) (asks : List Oracle) (hvars : vars ≠ .null) :
    Awaiting (step s (.solutions limit vars as con asks)).2 w := by
  refine ⟨plain_step hs.plain (c := .solutions limit vars as con asks) hvars, ?_, hs.lits⟩
  rw [show (step s (.solutions limit vars as con asks)).2 = _ from
    congrArg Prod.snd (run_bind_pure _ _ s), run_satSolutions]
  cases hh : solutionsHands s limit vars as con with
  | error e => exact hs.rests
  | ok r =>
    obtain ⟨hr, hidle, -⟩ := solutionsHands_ok hh
    have hw : w = none := by
      have hsome := hs.rests.pending.symm.trans hidle
      cases w with
      | none => rfl
      | some p => cases hsome
    subst hw
    let J : Session → Enumeration → Prop := fun t _ => Awaiting t none ∧ t.aux = s.aux
    have hround : ∀ (ask : Oracle) again, True →
        (∀ t st, J t st → Rests ((again st).run t).2.handle none) → ∀ t st, J t st →
        Rests ((satSolutionsRound r.vars r.assumptions r.constraint ask again st).run t).2.handle
          none := by
      rintro ask again - hagain t st ⟨ht, haux⟩
      have hrt : r.Checked t.aux := haux ▸ hr
      have hasked := ht.asked hrt ask
      rcases ht.round hrt ask again st with hend | ⟨st', cl, hgo⟩
      · rw [hend]
        exact hasked.rests
      · rw [hgo]
        exact hagain _ st' ⟨hasked.withClause cl, (asked_aux t r ask).trans haux⟩
    have hloop := loop_of_round (J := J) (Q := fun p => Rests p.2.handle none)
      (fun _ _ h => h.1.rests) hround trivial asks (fun _ _ => trivial) s
      ⟨[], [], .unknown, .limit⟩ ⟨hs, rfl⟩
    rw [run_bind, run_ofExcept_ok, andThen_ok, enumerate, run_bind_pure]
    exact hloop

end Rounds

/-! ## Whole runs -/

theorem Awaiting.step {s : Session} {w : Option (List ℤ)} (hs : Awaiting s w) {c : Call}
    (hc : ordinary c) : Awaiting (step s c).2 (waitingAfter s w c) := by
  cases c with
  | add x => exact hs.adding x
  | constrain v => exact hs.constrain v
  | cardinality b ls k e => exact hs.cardinality b ls k e
  | reserve n => exact hs.reserve n
  | solve v ask => exact hs.solve v ask
  | simplify ask => exact hs.simplify ask
  | solutions limit vars as con asks => exact hs.solutions limit vars as con asks hc.2.2.2
  | _ => exact hs.quiet hc trivial

theorem Awaiting.run {s : Session} {w : Option (List ℤ)} (hs : Awaiting s w) {cs : List Call}
    (hcs : ∀ c ∈ cs, ordinary c) : Awaiting (run Session.step s cs) (waitingFrom s w cs) := by
  induction cs generalizing s w with
  | nil => exact hs
  | cons c cs ih =>
    exact ih (hs.step (hcs c (List.mem_cons_self ..))) fun d hd => hcs d (List.mem_cons_of_mem c hd)

theorem awaiting_after {cs : List Call} (hcs : ∀ c ∈ cs, ordinary c) :
    Awaiting (after cs) (waiting cs) := awaiting_new.run hcs

end Session
end Zusat
