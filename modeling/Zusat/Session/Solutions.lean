import Zusat.Foundations.Listing
import Zusat.Session.Holding

/-! # What an enumeration finds

The searches are arbitrary but correct: a model is one of the clauses, the assumptions and the
constraint the search was started with, and `unsat` is only said when there is none. After each round
the solver holds the formula and a blocking clause for every assignment found, so what remains to be
found are exactly the models with another projection. -/

namespace Zusat
open Foundations Foundations.Prog
set_option autoImplicit false

namespace Session

/-! ## Correct searches -/

/-- The clause a constraint asks for, once it is terminated. -/
def constraintClauses : List ℤ → List (List ℤ)
  | [] => []
  | ls => [ls.filter (· ≠ 0)]

/-- The formula a search is started on. -/
def problem (c : Cadical) : List (List ℤ) :=
  c.clauses ++ c.assumptions.map (fun l => [l]) ++ constraintClauses c.constraint

/-- The assignment an answer gives the variables known to the search. -/
def modelOf (c : Cadical) (a : Answer) : Assignment := fun v => decide (v ≤ c.maxVar) && a.vals v

structure Correct (ask : Oracle) : Prop where
  sat : ∀ c, (ask c).res = .sat → models (modelOf c (ask c)) (problem c) = true
  unsat : ∀ c, (ask c).res = .unsat → ∀ α, models α (problem c) = false

theorem correct_interrupted : Correct interruptedSearch := by
  constructor <;> intro c h <;> cases h

theorem constraintClauses_inForce {o : Option (List ℤ)}
    (ho : ∀ p, o = some p → ∀ l ∈ p, ValidLit l) :
    constraintClauses (Handle.inForce o) = o.toList := by
  cases o with
  | none => rfl
  | some p =>
    have hfilter : (p ++ [0]).filter (· ≠ 0) = p := by
      rw [List.filter_append, List.filter_eq_self.mpr fun l hl => by simpa using (ho p rfl l hl).1]
      simp
    rw [Handle.inForce]
    cases p with
    | nil => rfl
    | cons l p => exact congrArg (fun q => [q]) hfilter

/-! ## Projections and blocking clauses -/

theorem satisfies_cons (α : Assignment) (l : ℤ) (cl : List ℤ) :
    satisfies α (l :: cl) = (holds α l || satisfies α cl) := rfl

theorem holds_of_pos {v : ℤ} (hv : 0 < v) (α : Assignment) : holds α v = α v.natAbs := by
  rw [holds, if_neg (by omega)]

/-- A blocking clause rules out the assignments with that projection, and no others. -/
theorem satisfies_blockingClause {vs : List ℤ} (hvs : ∀ v ∈ vs, 0 < v) {value : List Bool}
    (hlen : value.length = vs.length) (α : Assignment) :
    satisfies α (blockingClause vs value) = true ↔ project vs α ≠ value := by
  induction vs generalizing value with
  | nil =>
    obtain rfl := List.length_eq_zero_iff.mp hlen
    simp [satisfies, blockingClause, project]
  | cons v vs ih =>
    cases value with
    | nil => cases hlen
    | cons b value =>
      have hv := hvs v (List.mem_cons_self ..)
      have ih := ih (fun w hw => hvs w (List.mem_cons_of_mem v hw)) (Nat.succ.inj hlen)
      have hb : holds α (if b then -v else v) = true ↔ α v.natAbs ≠ b := by
        cases b with
        | false => rw [if_neg Bool.false_ne_true, holds_of_pos hv, Bool.ne_false_iff]
        | true =>
          rw [if_pos rfl, holds_neg (by omega), holds_of_pos hv, Bool.not_eq_true', ne_eq,
            Bool.not_eq_true]
      change satisfies α ((if b then -v else v) :: blockingClause vs value) = true ↔
        α v.natAbs :: project vs α ≠ b :: value
      rw [satisfies_cons, Bool.or_eq_true_iff, hb, ih, ne_eq, ne_eq, ne_eq, List.cons.injEq,
        not_and_or]

theorem models_blocking {vs : List ℤ} (hvs : ∀ v ∈ vs, 0 < v) {found : List (List Bool)}
    (hlen : ∀ b ∈ found, b.length = vs.length) (α : Assignment) :
    models α (found.map (blockingClause vs)) = true ↔ project vs α ∉ found := by
  rw [models_iff]
  constructor
  · intro h hmem
    exact (satisfies_blockingClause hvs (hlen _ hmem) α).mp (h _ (List.mem_map_of_mem hmem)) rfl
  · intro h cl hcl
    obtain ⟨b, hb, rfl⟩ := List.mem_map.mp hcl
    rw [satisfies_blockingClause hvs (hlen b hb)]
    rintro rfl
    exact h hb

/-! ## Requests -/

/-- The formula together with the assumptions and the constraint of a request. -/
def Request.formula (r : Request) (F : List (List ℤ)) : List (List ℤ) :=
  F ++ r.assumptions.map (fun l => [l]) ++ r.constraint.toList

/-- The largest variable known once the request has been searched for. -/
def Request.known (r : Request) (n : ℕ) : ℕ := max n (topVar (r.constraint.getD [] ++ r.assumptions))

/-- The variables it projects onto: those asked for, or all that are known after the first search. -/
def Request.projection (r : Request) (s : Session) : List ℤ :=
  r.vars.getD (seqLen (r.known s.solver.maxVar))

section Start
variable {t : Session} {r : Request} {G : List (List ℤ)}

/-- The solver as the search of a round finds it. -/
def searchedFrom (t : Session) (r : Request) : Cadical :=
  (assuming (armed t r.constraint).solver r.assumptions).startSearch

theorem armed_maxVar (t : Session) (con : Option (List ℤ)) :
    (armed t con).solver.maxVar = max t.solver.maxVar (topVar (con.getD [])) := by
  cases con with
  | none => exact (Nat.max_zero _).symm
  | some p => rfl

theorem searchedFrom_maxVar (t : Session) (r : Request) :
    (searchedFrom t r).maxVar = r.known t.solver.maxVar := by
  rw [searchedFrom, (startSearch_opts _).2, assuming_maxVar, armed_maxVar, Request.known,
    topVar_append, max_assoc]

/-- What that search is made under. -/
theorem searchedFrom_inForce (t : Session) (r : Request) :
    (searchedFrom t r).assumptions = t.solver.transitionToSteadyState.assumptions ++ r.assumptions ∧
      (searchedFrom t r).constraint = (armed t r.constraint).solver.transitionToSteadyState.constraint := by
  have harmed : (armed t r.constraint).solver.transitionToSteadyState.assumptions =
      t.solver.transitionToSteadyState.assumptions := by
    cases r.constraint <;> rfl
  obtain ⟨hass, hcons, -⟩ :=
    Handle.transition_foldl_pushAssumption (armed t r.constraint).solver r.assumptions
  rw [harmed] at hass
  exact ⟨(Handle.startSearch_assumptions _).trans hass, (Handle.startSearch_constraint _).trans hcons⟩

/-- No clause is begun, and nothing is assumed or constrained. -/
structure Clear (t : Session) : Prop where
  clause : t.solver.clause = []
  assumptions : t.solver.transitionToSteadyState.assumptions = []
  constraint : t.solver.transitionToSteadyState.constraint = []

theorem Holds.clear (h : Holds t G) (hidle : t.handle.constraintPending = false) : Clear t :=
  ⟨h.clause, h.assumptions, h.constraint hidle⟩

theorem problem_searchedFrom (h : Clear t)
    (hcon : ∀ p, r.constraint = some p → ∀ l ∈ p, ValidLit l) :
    problem (searchedFrom t r) = r.formula t.solver.clauses := by
  have harmed : (armed t r.constraint).solver.transitionToSteadyState.constraint =
      Handle.inForce r.constraint := by
    cases r.constraint with
    | none => exact h.constraint
    | some p =>
      change (if t.solver.transitionToSteadyState.constraint.getLast? = some 0 then []
        else t.solver.transitionToSteadyState.constraint) ++ (p ++ [0]) = _
      rw [h.constraint]
      rfl
  obtain ⟨hassumed, hforced⟩ := searchedFrom_inForce t r
  rw [h.assumptions, List.nil_append] at hassumed
  have hclauses : (searchedFrom t r).clauses = t.solver.clauses :=
    ((startSearch_clauses _).1.trans (assuming_clauses _ _).1).trans (armed_clauses t r.constraint).1
  rw [problem, hclauses, hassumed, hforced.trans harmed, constraintClauses_inForce hcon, Request.formula]

theorem Clear.asked (h : Clear t) (r : Request) (ask : Oracle) : Clear (asked t r ask) := by
  have hended : (Session.asked t r ask).solver.state.ended = true := by
    change (roundAnswer t r ask).res.state.ended = true
    cases (roundAnswer t r ask).res <;> rfl
  exact ⟨(asked_clauses t r ask).2.trans h.clause, if_pos hended, if_pos hended⟩

theorem Clear.withClause (h : Clear t) (cl : List ℤ) : Clear (withClause t cl) :=
  ⟨rfl, h.assumptions, h.constraint⟩

theorem change_askedAny (hs : t.solver.Settled)
    (hcon : ∀ p, r.constraint = some p → ∀ l ∈ p, ValidLit l) (ask : Oracle) :
    Cadical.Change (fun _ => True) (fun _ => True) (fun _ => False) t.solver
      (asked t r ask).solver :=
  change_asked hs (fun p hp l hl => ⟨hcon p hp l hl, trivial⟩) (fun _ _ => trivial) ask

theorem asked_maxVar (hoff : FactorOff t.solver) (hs : t.solver.Settled)
    (hcon : ∀ p, r.constraint = some p → ∀ l ∈ p, ValidLit l) (ask : Oracle) :
    (asked t r ask).solver.maxVar = r.known t.solver.maxVar := by
  have hfactor : (searchedFrom t r).opts "factor" = 0 :=
    (hoff.change (change_askedAny hs hcon ask) not_false not_false).factor
  change (searchedFrom t r).maxVar + (searchedFrom t r).extensionOf _ = _
  rw [Cadical.extensionOf_eq_zero hfactor, Nat.add_zero, searchedFrom_maxVar]

theorem Holds.asked (h : Holds t G) (hcon : ∀ p, r.constraint = some p → ∀ l ∈ p, ValidLit l)
    (ask : Oracle) : Holds (asked t r ask) G := by
  have hchange := change_askedAny (.inl h.valid) hcon ask
  have hended : (Session.asked t r ask).solver.state.ended = true ∧
      (Session.asked t r ask).solver.state.ready = true := by
    change (roundAnswer t r ask).res.state.ended = true ∧ (roundAnswer t r ask).res.state.ready = true
    cases (roundAnswer t r ask).res <;> exact ⟨rfl, rfl⟩
  obtain ⟨hclauses, hclause⟩ := asked_clauses t r ask
  exact
    { ready := hended.2
      off := h.off.change hchange not_false not_false
      clauses := hclauses.trans h.clauses
      clause := hclause.trans h.clause
      known := fun cl hcl l hl => le_trans (h.known cl hcl l hl) hchange.maxVar
      assumptions := if_pos hended.1
      constraint := fun _ => if_pos hended.1 }

theorem Holds.withClause (h : Holds t G) (cl : List ℤ) :
    Holds (withClause t cl) (G ++ [cl]) := by
  have hchange : Cadical.Change (fun _ => True) (fun _ => True) (fun _ => False) t.solver
      (Session.withClause t cl).solver := Cadical.change_takeClause (.inl h.valid) fun _ _ => trivial
  refine ⟨rfl, h.off.change hchange not_false not_false, ?_, rfl, ?_, h.assumptions,
    h.constraint⟩
  · change t.solver.clauses ++ [t.solver.clause ++ cl] = _
    rw [h.clauses, h.clause, List.nil_append]
  · intro c hc l hl
    rcases List.mem_append.mp hc with hc | hc
    · exact le_trans (h.known c hc l hl) (le_max_left ..)
    · rw [List.mem_singleton.mp hc] at hl
      exact le_trans (natAbs_le_topVar hl) (le_max_right ..)

/-- What a round reads is the projection of the model its search found. -/
theorem roundValue_asked {ask : Oracle}
    (hmax : (asked t r ask).solver.maxVar = r.known t.solver.maxVar) {vs : List ℤ}
    (hvs : ∀ v ∈ vs, 0 < v) : roundValue (asked t r ask) vs =
      project vs (modelOf (searchedFrom t r) (roundAnswer t r ask)) := by
  rw [← searchedFrom_maxVar] at hmax
  refine List.map_congr_left fun v hv => ?_
  have hpos := hvs v hv
  have hvals : (asked t r ask).solver.vals = (roundAnswer t r ask).vals := rfl
  rw [Handle.valueOf, Cadical.ival, modelOf, hmax, hvals, if_neg (show ¬v < 0 by omega)]
  by_cases hgt : v > (searchedFrom t r).maxVar
  · rw [if_pos hgt, decide_eq_false (by omega)]
    rfl
  · rw [if_neg hgt, decide_eq_true (by omega), Bool.true_and]
    cases (roundAnswer t r ask).vals v.natAbs with
    | false =>
      rw [if_neg Bool.false_ne_true, if_neg (by omega), Option.getD_some]
      exact decide_eq_false (by omega)
    | true =>
      rw [if_pos rfl, if_neg (by omega), Option.getD_some]
      exact decide_eq_true hpos

end Start

/-! ## The loop -/

theorem models_formula_append (r : Request) (F G : List (List ℤ)) (α : Assignment) :
    models α (r.formula (F ++ G)) = true ↔
      models α (r.formula F) = true ∧ models α G = true := by
  simp only [Request.formula, models_append_iff]
  tauto

/-- What holds between two rounds. -/
structure Enumerating (s : Session) (F : List (List ℤ)) (r : Request) (t : Session)
    (st : Enumeration) : Prop where
  holds : Holds t (F ++ st.found.map (blockingClause (r.projection s)))
  aux : t.aux = s.aux
  idle : t.handle.constraintPending = false
  known : r.vars = none → r.known t.solver.maxVar = r.known s.solver.maxVar
  maxVar : r.vars = none → st.found ≠ [] → t.solver.maxVar = r.known s.solver.maxVar
  listing : Listing (fun α => models α (r.formula F) = true) (project (r.projection s)) st.found
  thisVars : st.found ≠ [] → st.thisVars = r.projection s
  empty : r.projection s = [] → st.found = []
  stopped : st.stopped = .limit

/-- What holds when the loop has ended. -/
structure Enumerated (s : Session) (F : List (List ℤ)) (r : Request) (t : Session)
    (st : Enumeration) : Prop where
  clauses : t.solver.clauses =
    F ++ if r.projection s = [] then [] else st.found.map (blockingClause (r.projection s))
  clause : t.solver.clause = []
  idle : t.handle.constraintPending = false
  maxVar : r.vars = none → st.found ≠ [] → t.solver.maxVar = r.known s.solver.maxVar
  listing : Listing (fun α => models α (r.formula F) = true) (project (r.projection s)) st.found
  thisVars : st.found ≠ [] → st.thisVars = r.projection s
  complete : st.stopped = .exhausted →
    ∀ α, models α (r.formula F) = true → project (r.projection s) α ∈ st.found

section Loop
variable {s t : Session} {F : List (List ℤ)} {r : Request} {st : Enumeration} {ask : Oracle}

theorem enumerating_start (hs : Holds s F) (hidle : s.handle.constraintPending = false) :
    Enumerating s F r s ⟨[], [], .unknown, .limit⟩ where
  holds := by simpa using hs
  aux := rfl
  idle := hidle
  known := fun _ => rfl
  maxVar := fun _ h => absurd rfl h
  listing := listing_nil
  thisVars := fun h => absurd rfl h
  empty := fun _ => rfl
  stopped := rfl

theorem Enumerating.clauses (h : Enumerating s F r t st) : t.solver.clauses =
    F ++ if r.projection s = [] then [] else st.found.map (blockingClause (r.projection s)) := by
  rw [h.holds.clauses]
  split
  · next hempty => rw [h.empty hempty, List.map_nil]
  · rfl

theorem Enumerating.length (h : Enumerating s F r t st) :
    ∀ b ∈ st.found, b.length = (r.projection s).length := by
  intro b hb
  obtain ⟨α, -, rfl⟩ := h.listing.sound b hb
  exact List.length_map _

theorem Enumerating.asked_maxVar (h : Enumerating s F r t st) (hr : r.Checked s.aux) (ask : Oracle)
    (hvars : r.vars = none) : (asked t r ask).solver.maxVar = r.known s.solver.maxVar := by
  rw [Session.asked_maxVar h.holds.off (.inl h.holds.valid) hr.constraint, h.known hvars]

/-- Every round projects onto the same variables. -/
theorem Enumerating.roundVars (h : Enumerating s F r t st) (hr : r.Checked s.aux) (ask : Oracle) :
    Session.roundVars r (asked t r ask) = r.projection s := by
  rw [Session.roundVars, Request.projection]
  cases hvars : r.vars with
  | some vs => rfl
  | none => rw [h.asked_maxVar hr ask hvars]

/-- A model found is one that remains. -/
theorem Enumerating.remaining (h : Enumerating s F r t st) (hr : r.Checked s.aux)
    (hvs : ∀ v ∈ r.projection s, 0 < v) (hask : Correct ask)
    (hsat : (roundAnswer t r ask).res = .sat) :
    Remaining (fun α => models α (r.formula F) = true) (project (r.projection s)) st.found
      (modelOf (searchedFrom t r) (roundAnswer t r ask)) := by
  have hmodel := hask.sat (searchedFrom t r) hsat
  rw [problem_searchedFrom (h.holds.clear h.idle) hr.constraint, h.holds.clauses,
    models_formula_append] at hmodel
  exact ⟨hmodel.1, (models_blocking hvs h.length _).mp hmodel.2⟩

theorem Enumerating.none_remaining (h : Enumerating s F r t st) (hr : r.Checked s.aux)
    (hvs : ∀ v ∈ r.projection s, 0 < v) (hask : Correct ask)
    (hunsat : (roundAnswer t r ask).res = .unsat) (α : Assignment) :
    ¬Remaining (fun α => models α (r.formula F) = true) (project (r.projection s)) st.found α := by
  rintro ⟨hmodel, hnew⟩
  have hno := hask.unsat (searchedFrom t r) hunsat α
  rw [problem_searchedFrom (h.holds.clear h.idle) hr.constraint, h.holds.clauses] at hno
  have hyes := (models_formula_append r F _ α).mpr ⟨hmodel, (models_blocking hvs h.length α).mpr hnew⟩
  rw [hno] at hyes
  cases hyes

theorem topVar_blockingClause_le {n : ℕ} (value : List Bool) :
    topVar (blockingClause (seqLen n) value) ≤ n := by
  refine topVar_le fun l hl => ?_
  obtain ⟨v, hv, rfl | rfl⟩ := mem_blockingClause hl
  · have := mem_seqLen.mp hv
    omega
  · have := mem_seqLen.mp hv
    omega

/-- One more assignment found and blocked. -/
theorem Enumerating.next (h : Enumerating s F r t st) (hr : r.Checked s.aux)
    (hvs : ∀ v ∈ r.projection s, 0 < v) (hask : Correct ask)
    (hsat : (roundAnswer t r ask).res = .sat) (hne : r.projection s ≠ []) {value : List Bool}
    (hvalue : value = roundValue (asked t r ask) (r.projection s)) :
    Enumerating s F r (withClause (asked t r ask) (blockingClause (r.projection s) value))
      (st.reading (r.projection s) value) := by
  have hread : value = project (r.projection s)
      (modelOf (searchedFrom t r) (roundAnswer t r ask)) := by
    rw [hvalue, roundValue_asked
      (Session.asked_maxVar h.holds.off (.inl h.holds.valid) hr.constraint ask) hvs]
  have hmax : r.vars = none → (withClause (asked t r ask)
      (blockingClause (r.projection s) value)).solver.maxVar = r.known s.solver.maxVar := by
    intro hvars
    change max (asked t r ask).solver.maxVar (topVar _) = _
    rw [h.asked_maxVar hr ask hvars, Request.projection, hvars]
    exact max_eq_left (topVar_blockingClause_le value)
  refine ⟨?_, (asked_aux t r ask).trans h.aux, rfl, fun hvars => ?_, fun hvars _ => hmax hvars, ?_,
    fun _ => rfl, fun he => absurd he hne, h.stopped⟩
  · have hadded := (h.holds.asked hr.constraint ask).withClause
      (blockingClause (r.projection s) value)
    rwa [List.append_assoc, ← List.map_singleton, ← List.map_append] at hadded
  · rw [hmax hvars, Request.known, Request.known, max_assoc, max_self]
  · rw [hread]
    exact h.listing.snoc (h.remaining hr hvs hask hsat)

/-- A search without a model ends the loop. -/
theorem Enumerating.ending (h : Enumerating s F r t st) (hr : r.Checked s.aux)
    (hvs : ∀ v ∈ r.projection s, 0 < v) (hask : Correct ask) :
    Enumerated s F r (asked t r ask) (st.ending (roundAnswer t r ask).res) := by
  obtain ⟨hclauses, hclause⟩ := asked_clauses t r ask
  refine ⟨hclauses.trans h.clauses, hclause.trans h.holds.clause, rfl,
    fun hvars _ => h.asked_maxVar hr ask hvars, h.listing, h.thisVars, ?_⟩
  intro hstopped α hα
  have hunsat : (roundAnswer t r ask).res = .unsat := by
    by_contra hno
    rw [Enumeration.ending, if_neg hno] at hstopped
    cases hstopped
  exact mem_of_none_remaining (h.none_remaining hr hvs hask hunsat) hα

/-- With nothing to project onto, one model is all there is to say. -/
theorem Enumerating.single (h : Enumerating s F r t st) (hr : r.Checked s.aux)
    (hask : Correct ask) (hsat : (roundAnswer t r ask).res = .sat) (hempty : r.projection s = []) :
    Enumerated s F r (asked t r ask) { st.reading [] [] with stopped := .exhausted } := by
  obtain ⟨hclauses, hclause⟩ := asked_clauses t r ask
  have hvs : ∀ v ∈ r.projection s, 0 < v := by simp [hempty]
  have hlisting := h.listing.snoc (h.remaining hr hvs hask hsat)
  rw [hempty] at hlisting
  refine ⟨?_, hclause.trans h.holds.clause, rfl, fun hvars _ => h.asked_maxVar hr ask hvars, ?_,
    fun _ => hempty.symm, ?_⟩
  · rw [hclauses, h.clauses]
    simp only [hempty, if_true]
  · rw [hempty]
    exact hlisting
  · intro _ α _
    rw [hempty]
    exact List.mem_append_right _ (List.mem_singleton.mpr rfl)

theorem Enumerating.ended (h : Enumerating s F r t st) : Enumerated s F r t st :=
  ⟨h.clauses, h.holds.clause, h.idle, h.maxVar, h.listing, h.thisVars,
    fun hs => by rw [h.stopped] at hs; cases hs⟩

theorem Request.Checked.projection_pos (hr : r.Checked s.aux) : ∀ v ∈ r.projection s, 0 < v := by
  intro v hv
  rw [Request.projection] at hv
  cases hvars : r.vars with
  | some vs =>
    rw [hvars] at hv
    exact ((hr.vars vs hvars).2 v hv).2
  | none =>
    rw [hvars] at hv
    have := mem_seqLen.mp hv
    omega

theorem loop_enumerated (hr : r.Checked s.aux) {asks : List Oracle}
    (hasks : ∀ ask ∈ asks, Correct ask) (h : Enumerating s F r t st) {st' : Enumeration}
    {t' : Session}
    (hrun : (satSolutionsLoop r.limit r.vars r.assumptions r.constraint asks st).run t =
      (.ok st', t')) : Enumerated s F r t' st' := by
  let Q : Except RError Enumeration × Session → Prop := fun p =>
    ∀ st', p.1 = .ok st' → Enumerated s F r p.2 st'
  have hvs := hr.projection_pos
  have hround : ∀ (ask : Oracle) again, Correct ask →
      (∀ t st, Enumerating s F r t st → Q ((again st).run t)) → ∀ t st, Enumerating s F r t st →
        Q ((satSolutionsRound r.vars r.assumptions r.constraint ask again st).run t) := by
    intro ask again hask hagain t st h
    have hrt : r.Checked t.aux := h.aux ▸ hr
    rcases round_cases h.holds.valid hrt ask st with
      ⟨e, t', -, hrun⟩ | ⟨-, -, hrun⟩ | ⟨-, hsat, hempty, -, hrun⟩ |
        ⟨-, hsat, vs, value, rfl, hvalue, -, hne, -, -, hrun⟩ |
        ⟨-, -, vs, value, q, l, e, -, -, -, -, -, -, hrun⟩
    · rw [hrun]
      intro st' hst'
      cases hst'
    · rw [hrun]
      intro st' hst'
      obtain rfl := Except.ok.inj hst'
      exact h.ending hr hvs hask
    · rw [hrun]
      intro st' hst'
      obtain rfl := Except.ok.inj hst'
      rw [h.roundVars hr ask] at hempty
      exact h.single hr hask hsat hempty
    · rw [hrun]
      rw [h.roundVars hr ask] at hvalue hne ⊢
      exact hagain _ _ (h.next hr hvs hask hsat hne hvalue)
    · rw [hrun]
      intro st' hst'
      cases hst'
  have hend : ∀ t st, Enumerating s F r t st → Q (.ok st, t) := by
    intro t st h st' hst'
    obtain rfl := Except.ok.inj hst'
    exact h.ended
  have hloop := loop_of_round hend hround correct_interrupted asks hasks t st h
  rw [hrun] at hloop
  exact hloop st' rfl

end Loop

/-! ## The loop returns -/

section Returns
variable {s t : Session} {F G : List (List ℤ)} {r : Request} {st : Enumeration} {ask : Oracle}

/-- CaDiCaL takes every literal the package hands it and every answer of its searches. -/
structure Open (t : Session) : Prop where
  frozen : t.solver.opts "checkfrozen" = 0
  unchecked : t.solver.opts "check" = 0
  maxVar : t.solver.maxVar ≤ zusatMaxVar

theorem accepts_of_valid {c : Cadical} (hoff : FactorOff c) (hfrozen : c.opts "checkfrozen" = 0)
    {l : ℤ} (hl : ValidLit l) : c.accepts l = true := by
  rw [Cadical.accepts, usable_of_valid hl (hoff.ervars _), Cadical.molten, hfrozen]
  rfl

theorem known_le (hr : r.Checked s.aux) {n : ℕ} (hn : n ≤ zusatMaxVar) :
    r.known n ≤ zusatMaxVar := by
  refine max_le hn (topVar_le fun l hl => ?_)
  rcases List.mem_append.mp hl with hl | hl
  · cases hcon : r.constraint with
    | none =>
      rw [hcon] at hl
      cases hl
    | some p =>
      rw [hcon] at hl
      exact (hr.constraint p hcon l hl).2
  · exact (hr.assumptions l hl).2

theorem Open.asked (ho : Open t) (h : Holds t G) (hr : r.Checked t.aux) (ask : Oracle) :
    Open (asked t r ask) where
  frozen := ((change_askedAny (.inl h.valid) hr.constraint ask).opts _ not_false).trans ho.frozen
  unchecked := ((change_askedAny (.inl h.valid) hr.constraint ask).opts _ not_false).trans ho.unchecked
  maxVar := by
    rw [asked_maxVar h.off (.inl h.valid) hr.constraint]
    exact known_le hr ho.maxVar

theorem run_arm_open (ho : Open t) (h : Holds t G) (hr : r.Checked t.aux) :
    (doIf r.constraint.isSome
      (onHandle (Handle.zusatConstrain (.int (r.constraint.getD []))))).run t =
        (.ok (), armed t r.constraint) := by
  cases hcon : r.constraint with
  | none => rfl
  | some p =>
    have hp := hr.constraint p hcon
    rcases Handle.run_zusatConstrain h.valid hp with ⟨-, hrun⟩ | ⟨q, l, rest, e, rfl, -, hl, -⟩
    · exact run_onHandle hrun
    · rw [accepts_of_valid h.off ho.frozen (hp l (by simp))] at hl
      cases hl

theorem run_search_open (ho : Open t) (h : Holds t G) (hr : r.Checked t.aux) :
    (satSolve (.ints r.assumptions) ask).run (armed t r.constraint) =
      if (roundAnswer t r ask).interrupted then (.error (.stop "solve interrupted"), asked t r ask)
      else (newSolution (roundAnswer t r ask).res).run (asked t r ask) := by
  rcases satSolve_cases (armed_valid h.valid r.constraint) (.ints r.assumptions) ask with
    ⟨e, hh, -⟩ | ⟨p, hh, -, -, -, hrun⟩ | ⟨p, q, l, rest, e, hh, rfl, -, hl, -, -, -⟩ | ⟨-, hadd, -⟩ |
      ⟨p, e, hh, -, -, hcheck, -⟩
  · rw [solveHands_checked hr] at hh
    cases hh
  · rw [solveHands_checked hr] at hh
    obtain rfl := Except.ok.inj hh
    exact hrun
  · rw [solveHands_checked hr] at hh
    have hassumed := Except.ok.inj hh
    have hchange := change_armed (K := fun _ => True) (L := fun _ => True) (N := fun _ => False)
      (.inl h.valid) fun p hp l hl => ⟨hr.constraint p hp l hl, trivial⟩
    rw [accepts_of_valid (h.off.change hchange not_false not_false)
      ((hchange.opts _ not_false).trans ho.frozen)
      (hr.assumptions l (by rw [hassumed]; simp))] at hl
    cases hl
  · cases hcon : r.constraint with
    | none =>
      rw [hcon] at hadd
      have hready := h.ready
      rw [show t.solver.state = .adding from hadd] at hready
      cases hready
    | some p =>
      rw [hcon] at hadd
      cases hadd
  · have hoff : (assuming (armed t r.constraint).solver p).opts "check" = 0 := by
      rw [assuming_opts, armed_opts]
      exact ho.unchecked
    rw [Cadical.searchCheck_off hoff] at hcheck
    cases hcheck

/-- A round whose search is interrupted raises an error. -/
theorem round_interrupted (ho : Open t) (h : Holds t G) (hr : r.Checked t.aux)
    (hi : (roundAnswer t r ask).interrupted = true)
    (again : Enumeration → SessionM Enumeration) (st : Enumeration) :
    (satSolutionsRound r.vars r.assumptions r.constraint ask again st).run t =
      (.error (.stop "solve interrupted"), asked t r ask) := by
  rw [satSolutionsRound, run_bind, run_arm_open ho h hr, andThen_ok, run_bind, run_search_open ho h hr,
    if_pos hi, andThen_error]

/-- A round that is not interrupted ends the loop or goes on with one more assignment. -/
theorem round_returns (ho : Open t) (h : Holds t G) (hr : r.Checked t.aux)
    (hi : (roundAnswer t r ask).interrupted = false)
    (again : Enumeration → SessionM Enumeration) (st : Enumeration) :
    ((roundAnswer t r ask).res ≠ .sat ∧
      (satSolutionsRound r.vars r.assumptions r.constraint ask again st).run t =
        (.ok (st.ending (roundAnswer t r ask).res), asked t r ask)) ∨
    ((roundAnswer t r ask).res = .sat ∧ roundVars r (asked t r ask) = [] ∧
      (satSolutionsRound r.vars r.assumptions r.constraint ask again st).run t =
        (.ok { st.reading [] [] with stopped := .exhausted }, asked t r ask)) ∨
    ((roundAnswer t r ask).res = .sat ∧ roundVars r (asked t r ask) ≠ [] ∧
      (satSolutionsRound r.vars r.assumptions r.constraint ask again st).run t =
        (again (st.reading (roundVars r (asked t r ask))
            (roundValue (asked t r ask) (roundVars r (asked t r ask))))).run
          (withClause (asked t r ask) (blockingClause (roundVars r (asked t r ask))
            (roundValue (asked t r ask) (roundVars r (asked t r ask)))))) := by
  have hv' := asked_valid t r ask
  have ho' := ho.asked h hr ask
  have hoff' := (h.asked hr.constraint ask).off
  rw [satSolutionsRound, run_bind, run_arm_open ho h hr, andThen_ok, run_bind, run_search_open ho h hr,
    if_neg (by rw [hi]; exact Bool.false_ne_true)]
  by_cases hsat : (roundAnswer t r ask).res = .sat
  · obtain ⟨hl, hs⟩ := asked_sat hi hsat
    have hvs := roundVars_valid hr ho'.maxVar
    have husable : ∀ v ∈ seqLen (asked t r ask).solver.maxVar,
        (asked t r ask).solver.usable v = true := fun v hv =>
      usable_of_valid (seqLen_valid ho'.maxVar v hv).1 (hoff'.ervars _)
    have hread : ∀ v ∈ roundVars r (asked t r ask), v ≤ (asked t r ask).solver.maxVar →
        (asked t r ask).solver.usable v = true := fun v hv _ =>
      usable_of_valid (hvs v hv).1 (hoff'.ervars _)
    right
    rw [hsat, run_newSolution_sat hl hs ho'.maxVar husable, andThen_ok, if_neg (not_not.mpr rfl),
      run_bind, run_satNVars (.inl hv'), andThen_ok, run_bind, ← roundVars, run_satValue hl hs hvs hread,
      andThen_ok, List.map_map]
    by_cases hempty : roundVars r (asked t r ask) = []
    · rw [hempty]
      exact .inl ⟨rfl, rfl, rfl⟩
    · rw [if_neg (by simpa using hempty)]
      refine .inr ⟨rfl, hempty, ?_⟩
      rcases run_block hv' (blockingClause_valid (fun v hv => (hvs v hv).1) _) with
        ⟨-, hrun⟩ | ⟨q, l, e, hstop, -⟩
      · exact hrun _
      · refine (not_stopsAt hoff' ho'.frozen (fun cl hcl => ?_) hstop).elim
        rw [List.mem_singleton.mp hcl]
        exact blockingClause_valid (fun v hv => (hvs v hv).1) _
  · rw [run_newSolution_other hv' hsat, andThen_ok, if_pos hsat]
    exact .inl ⟨hsat, rfl⟩

theorem Open.withClause (ho : Open t) {cl : List ℤ} (hcl : ∀ l ∈ cl, ValidLit l) :
    Open (withClause t cl) where
  frozen := ho.frozen
  unchecked := ho.unchecked
  maxVar := max_le ho.maxVar (topVar_le fun l hl => (hcl l hl).2)

/-- With enough searches, none of them interrupted, the loop returns: it meets its limit, or runs out of
assignments. -/
theorem loop_returns (hr : r.Checked s.aux) {asks : List Oracle}
    (hasks : ∀ ask ∈ asks, Correct ask ∧ ∀ c, (ask c).interrupted = false)
    (h : Enumerating s F r t st) (ho : Open t) {total : ℕ}
    (htotal : st.found.length + asks.length = total)
    (henough : r.limit.gt total = false ∨ 2 ^ (r.projection s).length < total) :
    ∃ st' t', (satSolutionsLoop r.limit r.vars r.assumptions r.constraint asks st).run t =
      (.ok st', t') := by
  induction asks generalizing t st with
  | nil =>
    obtain rfl : st.found.length = total := htotal
    have hlimit : ¬r.limit.gt st.found.length = true := by
      intro hgt
      rcases henough with hle | hlt
      · rw [hgt] at hle
        cases hle
      · exact absurd (length_le_two_pow h.listing.nodup h.length) (by omega)
    rw [satSolutionsLoop, if_neg hlimit]
    exact ⟨st, t, rfl⟩
  | cons ask asks ih =>
    rw [satSolutionsLoop]
    split
    · have hrt : r.Checked t.aux := h.aux ▸ hr
      obtain ⟨hask, hquick⟩ := hasks ask (List.mem_cons_self ..)
      rcases round_returns ho h.holds hrt (hquick _) (satSolutionsLoop r.limit r.vars r.assumptions
        r.constraint asks) st with ⟨-, hrun⟩ | ⟨-, -, hrun⟩ | ⟨hsat, hne, hrun⟩
      · exact ⟨_, _, hrun⟩
      · exact ⟨_, _, hrun⟩
      · have ho' := ho.asked h.holds hrt ask
        have hvs := roundVars_valid hrt ho'.maxVar
        rw [h.roundVars hr ask] at hne hrun hvs
        rw [hrun]
        refine ih (fun a ha => hasks a (List.mem_cons_of_mem ask ha))
          (h.next hr hr.projection_pos hask hsat hne rfl)
          (ho'.withClause (blockingClause_valid (fun v hv => (hvs v hv).1) _)) ?_
        rw [← htotal, Enumeration.reading, List.length_append, List.length_singleton,
          List.length_cons]
        omega
    · exact ⟨st, t, rfl⟩

end Returns

/-! ## Exact enumeration -/

section Listed
variable {vs : List ℤ} {found : List (List Bool)} {P : Assignment → Prop}

/-- The report of a listing has an assignment for each of its entries. -/
theorem assignments_listing (h : Listing P (project vs) found) (status : SolveRes)
    (stopped : Stopped) :
    (newSolutions found vs status stopped).assignments = found.map (vs.zip ·) := by
  refine Session.assignments_newSolutions fun b hb => ?_
  obtain ⟨α, -, rfl⟩ := h.sound b hb
  exact List.length_map _

/-- Distinct entries are read back as distinct assignments. -/
theorem nodup_valuations (h : Listing P (project vs) found) :
    (found.map (vs.zip ·)).Nodup := by
  refine h.nodup.map_on fun a ha b hb hab => ?_
  obtain ⟨α, -, rfl⟩ := h.sound a ha
  obtain ⟨β, -, rfl⟩ := h.sound b hb
  have hsnd := congrArg (List.map Prod.snd) hab
  rwa [List.map_snd_zip (by simp [project]), List.map_snd_zip (by simp [project])] at hsnd

theorem map_excluding_zip (vs : List ℤ) (found : List (List Bool)) :
    (found.map (vs.zip ·)).map excluding = found.map (blockingClause vs) := by
  rw [List.map_map]
  exact List.map_congr_left fun value _ => excluding_zip vs value

end Listed

theorem newSolutions_vars (found : List (List Bool)) (vs ws : List ℤ) (status : SolveRes)
    (stopped : Stopped) (h : found ≠ [] → ws = vs) :
    newSolutions found (if found.isEmpty then [] else ws) status stopped =
      newSolutions found vs status stopped := by
  cases found with
  | nil => rfl
  | cons b found => rw [List.isEmpty_cons, if_neg Bool.false_ne_true, h (List.cons_ne_nil b found)]

/-- From a session that holds `F`, the assignments `sat_solutions` reports are distinct, they are
projections of models of `F`, the assumptions and the constraint, they are all of them when it says so,
and one blocking clause for each is what it leaves behind. With enough searches, whose results are taken as
they are, it does report. -/
theorem solutions_exact {s : Session} {F : List (List ℤ)} (hs : Holds s F)
    (limit vars assumptions constraint : RValue) {r : Request}
    (hr : solutionsHands s limit vars assumptions constraint = .ok r) (asks : List Oracle)
    (hasks : ∀ ask ∈ asks, Correct ask) :
    (∀ out s', (satSolutions limit vars assumptions constraint asks).run s = (.ok out, s') →
      out.assignments.Nodup ∧
      (∀ b ∈ out.assignments, ∃ α, models α (r.formula F) = true ∧
        valuation (r.projection s) α = b) ∧
      (out.complete = true → ∀ α, models α (r.formula F) = true →
        valuation (r.projection s) α ∈ out.assignments) ∧
      s'.solver.clauses = F ++ (if r.projection s = [] then [] else out.assignments.map excluding) ∧
      s'.solver.clause = [] ∧ s'.handle.constraintPending = false ∧
      (r.vars = none → out.assignments ≠ [] → r.projection s = seqLen s'.solver.maxVar)) ∧
    (s.solver.opts "checkfrozen" = 0 → s.solver.opts "check" = 0 → s.solver.maxVar ≤ zusatMaxVar →
      (∀ ask ∈ asks, ∀ c, (ask c).interrupted = false) →
      (r.limit.gt asks.length = false ∨ 2 ^ (r.projection s).length < asks.length) →
      ∃ out s', (satSolutions limit vars assumptions constraint asks).run s = (.ok out, s')) := by
  obtain ⟨hchecked, hidle, -⟩ := solutionsHands_ok hr
  have hstart := enumerating_start (r := r) hs hidle
  rw [run_satSolutions, hr, run_bind, run_ofExcept_ok, andThen_ok, enumerate]
  constructor
  · intro out s' hrun
    obtain ⟨st, t, hloop, hout⟩ := run_bind_ok.mp hrun
    obtain ⟨rfl, rfl⟩ : newSolutions st.found (if st.found.isEmpty then [] else st.thisVars)
        st.status st.stopped = out ∧ t = s' := by
      obtain ⟨h1, h2⟩ := Prod.ext_iff.mp hout
      exact ⟨Except.ok.inj h1, h2⟩
    have hend := loop_enumerated hchecked hasks hstart hloop
    have hlisting := hend.listing
    rw [newSolutions_vars _ _ _ _ _ hend.thisVars, assignments_listing hlisting]
    refine ⟨nodup_valuations hlisting, fun b hb => ?_, fun hcomplete α hα => ?_, ?_, hend.clause,
      hend.idle, fun hvars hne => ?_⟩
    · obtain ⟨value, hvalue, rfl⟩ := List.mem_map.mp hb
      obtain ⟨α, hα, rfl⟩ := hlisting.sound value hvalue
      exact ⟨α, hα, (zip_project _ α).symm⟩
    · rw [← zip_project]
      exact List.mem_map_of_mem (hend.complete (of_decide_eq_true hcomplete) α hα)
    · rw [hend.clauses, map_excluding_zip]
    · rw [Request.projection, hvars, hend.maxVar hvars fun h => hne (by rw [h, List.map_nil])]
      rfl
  · intro hfrozen hunchecked hmax hquick henough
    obtain ⟨st, t, hloop⟩ := loop_returns hchecked
      (fun ask ha => ⟨hasks ask ha, hquick ask ha⟩) hstart ⟨hfrozen, hunchecked, hmax⟩
      (Nat.zero_add asks.length) henough
    exact ⟨_, t, run_bind_ok.mpr ⟨st, t, hloop, rfl⟩⟩

/-- A search that tries one assignment and looks for an empty clause or two contradicting units. -/
def guess : Oracle := fun c =>
  let yes : Answer := ⟨.sat, false, fun _ => true, fun _ => false, false, 0, .unsat⟩
  if models (modelOf c yes) (problem c) then yes
  else if (problem c).any fun cl => (problem c).any fun d => d.all fun l => cl = [-l] ∧ l ≠ 0 then
    { yes with res := .unsat }
  else { yes with res := .unknown }

theorem correct_guess : Correct guess := by
  constructor
  · intro c h
    simp only [guess] at h ⊢
    split at h
    · next hm => rw [if_pos hm, hm]
    · split at h <;> cases h
  · intro c h α
    simp only [guess] at h
    split at h
    · cases h
    · split at h
      · next hcontra =>
        by_contra hm
        rw [Bool.not_eq_false, models_iff] at hm
        simp only [List.any_eq_true, List.all_eq_true, decide_eq_true_eq] at hcontra
        obtain ⟨cl, hcl, d, hd, hall⟩ := hcontra
        obtain ⟨l, hl, htrue⟩ := satisfies_iff.mp (hm d hd)
        obtain ⟨rfl, hne⟩ := hall l hl
        have hneg := hm _ hcl
        rw [satisfies_cons, holds_neg hne, htrue] at hneg
        cases hneg
      · cases h

theorem solutions_exact_unit :
    let s := after [.add (.value (.ints [1]))]
    Holds s [[1]] ∧ ∃ out s', (satSolutions (.ints [10]) (.ints [1, 1]) (.ints []) .null
      [guess, guess, guess]).run s = (.ok out, s') ∧ s'.handle.constraintPending = false := by
  intro s
  have hs : Holds s [[1]] := holds_after ⟨⟨by simp [leavesFactor, setsOption], by decide⟩, trivial⟩
  have hr : solutionsHands s (.ints [10]) (.ints [1, 1]) (.ints []) .null =
      .ok ⟨.fin 10, [], none, some [1]⟩ := by rfl
  have hexact := solutions_exact hs _ _ _ _ hr [guess, guess, guess] (by simp [correct_guess])
  have hquick : ∀ ask ∈ [guess, guess, guess], ∀ c, (ask c).interrupted = false := by
    intro ask hask c
    obtain rfl : ask = guess := by simpa using hask
    simp only [guess]
    split_ifs <;> rfl
  obtain ⟨out, s', hrun⟩ := hexact.2 (by decide) (by decide) (by decide) hquick (.inr (by decide))
  obtain ⟨-, -, -, -, -, hidle, -⟩ := hexact.1 out s' hrun
  exact ⟨hs, out, s', hrun, hidle⟩

end Session
end Zusat
