import Zusat.Session.Conservative

/-! # What the answers of a session say

The clauses CaDiCaL searches are not what the user wrote: bounds have become clauses over auxiliary
variables, and assumptions and a constraint are in force for one search only. The theorems here read the
results back in the user's terms. -/

namespace Zusat
open Foundations Foundations.Prog
set_option autoImplicit false

namespace Session

/-! ## A waiting constraint is over the user's variables -/

theorem waitingAfter_own {s : Session} {w : Option (List ℤ)} (hs : Awaiting s w)
    (hw : ∀ p, w = some p → ∀ l ∈ p, Own s l) (c : Call) :
    ∀ p, waitingAfter s w c = some p → ∀ l ∈ p, Own (step s c).2 l := by
  have hold : ∀ p, w = some p → ∀ l ∈ p, Own (step s c).2 l :=
    fun p hp l hl => own_step hs.plain.ranges (hw p hp l hl) c
  unfold waitingAfter
  cases c with
  | constrain v =>
    rcases hs.constrain_cases v with ⟨e, hh, -⟩ | ⟨q, hh, hrun⟩
    · simp only [hh]
      exact hold
    · simp only [hh]
      rintro p ⟨rfl⟩ l hl
      obtain ⟨-, hfree, -⟩ := constrainHands_ok hh
      have haux := (checkNotAux_ok_iff hs.plain.ranges.increasing _ _).mp hfree l hl
      rw [show step s (.constrain v) = _ from run_unit hrun]
      exact ⟨haux, le_trans (natAbs_le_topVar hl) (le_max_right ..)⟩
  | solve v ask =>
    cases hh : solveHands s.aux v with
    | error e =>
      simp only [hh]
      exact hold
    | ok q =>
      simp only [hh]
      intro p hp
      cases hp
  | simplify ask =>
    intro p hp
    cases hp
  | _ => exact hold

theorem waitingFrom_own {s : Session} {w : Option (List ℤ)} (hs : Awaiting s w)
    (hw : ∀ p, w = some p → ∀ l ∈ p, Own s l) {cs : List Call} (hcs : ∀ c ∈ cs, ordinary c) :
    ∀ p, waitingFrom s w cs = some p → ∀ l ∈ p, Own (run step s cs) l := by
  induction cs generalizing s w with
  | nil => exact hw
  | cons c cs ih =>
    exact ih (hs.step (hcs c (List.mem_cons_self ..))) (waitingAfter_own hs hw c)
      fun d hd => hcs d (List.mem_cons_of_mem c hd)

theorem waiting_own {cs : List Call} (hcs : ∀ c ∈ cs, ordinary c) {p : List ℤ}
    (hp : waiting cs = some p) : ∀ l ∈ p, Own (after cs) l :=
  waitingFrom_own awaiting_new (fun _ h => by cases h) hcs p hp

/-! ## Solving -/

/-- What a search of the session decides: the calls so far, the assumptions and a constraint. -/
def Asked (cs : List Call) (p : List ℤ) (con : Option (List ℤ)) (α : Assignment) : Prop :=
  Meaning cs α ∧ (∀ l ∈ p, holds α l = true) ∧ ∀ q, con = some q → satisfies α q = true

theorem models_units {α : Assignment} {p : List ℤ} :
    models α (p.map fun l => [l]) = true ↔ ∀ l ∈ p, holds α l = true := by
  simp [models_iff, satisfies]

theorem models_toList {α : Assignment} {o : Option (List ℤ)} :
    models α o.toList = true ↔ ∀ q, o = some q → satisfies α q = true := by
  cases o <;> simp [models]

section Search
variable {s : Session} {w : Option (List ℤ)}

/-- What the search of a solve starts with. -/
theorem search_starts (hs : Awaiting s w) (p : List ℤ) :
    (assuming s.solver p).startSearch.clauses = s.solver.clauses ∧
      (assuming s.solver p).startSearch.assumptions = p ∧
      (assuming s.solver p).startSearch.constraint = Handle.inForce w := by
  obtain ⟨hass, hcon, -⟩ := Handle.transition_foldl_pushAssumption s.solver p
  have hclauses := (startSearch_clauses (assuming s.solver p)).1.trans (assuming_clauses s.solver p).1
  rw [hs.rests.assumptions, List.nil_append] at hass
  rw [hs.rests.constraint] at hcon
  rw [Handle.startSearch_assumptions, Handle.startSearch_constraint]
  exact ⟨hclauses, hass, hcon⟩

theorem problem_solve (hs : Awaiting s w) (p : List ℤ) :
    problem (assuming s.solver p).startSearch =
      s.solver.clauses ++ p.map (fun l => [l]) ++ w.toList := by
  obtain ⟨hclauses, hass, hcon⟩ := search_starts hs p
  rw [problem, hclauses, hass, hcon, constraintClauses_inForce hs.lits]

/-- Assignments of the user's variables that meet everything asked extend to models of the problem. -/
theorem asked_iff {cs : List Call} (hcs : ∀ c ∈ cs, ordinary c) {p : List ℤ} {con : Option (List ℤ)}
    (hp : ∀ l ∈ p, ¬InAux (after cs).aux l.natAbs)
    (hcon : ∀ q, con = some q → ∀ l ∈ q, ¬InAux (after cs).aux l.natAbs) (α : Assignment) :
    (∃ β, AgreeOff (InAux (after cs).aux) α β ∧
      models β ((after cs).solver.clauses ++ p.map (fun l => [l]) ++ con.toList) = true) ↔
      Asked cs p con α := by
  have hfree : Avoids (p.map (fun l => [l]) ++ con.toList) (InAux (after cs).aux) := by
    intro cl hcl l hl
    rcases List.mem_append.mp hcl with hcl | hcl
    · obtain ⟨x, hx, rfl⟩ := List.mem_map.mp hcl
      rw [List.mem_singleton.mp hl]
      exact hp x hx
    · exact hcon cl (Option.mem_toList.mp hcl) l hl
  have hmeans := means_after hcs α
  constructor
  · rintro ⟨β, hβ, hm⟩
    rw [List.append_assoc, models_append_iff] at hm
    have hrest := (models_of_avoids hfree hβ).symm.trans hm.2
    rw [models_append_iff, models_units, models_toList] at hrest
    exact ⟨hmeans.mp ⟨β, hβ, hm.1⟩, hrest.1, hrest.2⟩
  · rintro ⟨hM, hunits, hcons⟩
    obtain ⟨β, hβ, hm⟩ := hmeans.mpr hM
    refine ⟨β, hβ, ?_⟩
    rw [List.append_assoc, models_append_iff, models_of_avoids hfree hβ, models_append_iff, models_units,
      models_toList]
    exact ⟨hm, hunits, hcons⟩

/-- What is read for a known variable is its value in the model of the search. -/
theorem valueOf_afterSearch {c : Cadical} {ask : Oracle} {pre : Bool}
    (hoff : (Cadical.afterSearch pre ask c).opts "factor" = 0) {v : ℤ} (hv : 0 < v)
    (hle : v ≤ (Cadical.afterSearch pre ask c).maxVar) :
    Handle.valueOf (Cadical.afterSearch pre ask c) v =
      some (modelOf c.startSearch (ask c.startSearch) v.natAbs) := by
  have hmax : (Cadical.afterSearch pre ask c).maxVar = c.startSearch.maxVar := by
    change c.startSearch.maxVar + c.startSearch.extensionOf _ = _
    rw [Cadical.extensionOf_eq_zero (c := c.startSearch) hoff, Nat.add_zero]
  have hvals : (Cadical.afterSearch pre ask c).vals = (ask c.startSearch).vals := rfl
  rw [hmax] at hle
  have hknown : v.natAbs ≤ c.startSearch.maxVar := by omega
  unfold Handle.valueOf Cadical.ival modelOf
  rw [hmax, hvals, if_neg (by omega)]
  simp only [hknown, decide_true, Bool.true_and, if_neg (show ¬v < 0 by omega)]
  cases (ask c.startSearch).vals v.natAbs with
  | false => simp [show v ≠ 0 by omega, show v ≥ 0 by omega]
  | true => simp [show v ≠ 0 by omega, hv]

end Search

theorem solveHands_of_free {s : Session} (hs : RangesKnown s) {v : RValue} {p : List ℤ}
    (hp : asLiterals "assumptions" v = .ok p) (hfree : ∀ l ∈ p, ¬InAux s.aux l.natAbs) :
    solveHands s.aux v = .ok p := by
  have hcheck := (checkNotAux_ok_iff hs.increasing p "assumptions").mpr hfree
  simp only [solveHands, hp, bind, Except.bind, hcheck]
  rfl

theorem searched_searches (h : Handle) (p : List ℤ) (ask : Oracle) :
    ∃ q : Search, (searched h p ask).solver.searches = h.solver.searches ++ [q] ∧
      q.answer = answerOf h.solver p ask := by
  refine ⟨⟨false, (assuming h.solver p).startSearch.maxVar, (assuming h.solver p).startSearch.assumptions,
    (assuming h.solver p).startSearch.constraint, answerOf h.solver p ask⟩, ?_, rfl⟩
  change (assuming h.solver p).startSearch.searches ++ [_] = _
  rw [startSearch_searches, assuming_searches]
  rfl

/-- A solve that is not interrupted returns, with the status of the one search it made and the number of
variables there are. A model is one of an assignment that meets all the calls said, the assumptions and
the waiting constraint; `unsat` says that there is none. -/
theorem solve_answers (cs : List Call) (hcs : ∀ c ∈ cs, ordinary c) (v : RValue) (ask : Oracle)
    (hask : Correct ask) (p : List ℤ) (hp : asLiterals "assumptions" v = .ok p)
    (hfree : ∀ l ∈ p, ¬InAux (after cs).aux l.natAbs)
    (hgo : (step (after cs) (.solve v ask)).1 ≠ .error (.stop "solve interrupted")) :
    ∃ sol, (step (after cs) (.solve v ask)).1 = .ok (.solution sol) ∧
      (∃ q : Search, (step (after cs) (.solve v ask)).2.solver.searches =
        (after cs).solver.searches ++ [q] ∧ sol.status = q.answer.res) ∧
      (satNVars.run (step (after cs) (.solve v ask)).2).1 = .ok sol.nVars ∧
      (sol.status = .sat → ∃ α, Asked cs p (waiting cs) α ∧ sol.variableCol = seqLen sol.nVars ∧
        sol.valueCol = (seqLen sol.nVars).map fun v => some (α v.natAbs)) ∧
      (sol.status = .unsat → ∀ α, ¬Asked cs p (waiting cs) α) := by
  have hs := awaiting_after hcs
  have hh := solveHands_of_free hs.plain.ranges hp hfree
  have hcon : ∀ q, waiting cs = some q → ∀ l ∈ q, ¬InAux (after cs).aux l.natAbs :=
    fun q hq l hl => (waiting_own hcs hq l hl).1
  have hasked := asked_iff hcs hfree hcon
  rw [← problem_solve hs p] at hasked
  -- the search is the one the answer is correct about
  obtain ⟨q, hq, hrun⟩ := (hs.solve_cases v ask).resolve_left (by
    rintro ⟨e, he, -⟩
    rw [hh] at he
    cases he)
  obtain rfl : p = q := Except.ok.inj (hh.symm.trans hq)
  obtain ⟨made, hmade, hanswer⟩ := searched_searches (after cs).handle p ask
  have hres : (step (after cs) (.solve v ask)).1 = ((satSolve v ask).run (after cs)).1.map .solution :=
    congrArg Prod.fst (run_bind_pure _ _ _)
  have hafter := hs.solve v ask
  rw [step_solve_snd, hrun, searched_solve] at hafter
  rw [step_solve_snd, hrun, searched_solve]
  rw [hres, hrun] at hgo ⊢
  cases hi : (answerOf (after cs).solver p ask).interrupted with
  | true =>
    rw [hi, if_pos rfl] at hgo
    exact absurd rfl hgo
  | false =>
    rw [if_neg Bool.false_ne_true]
    set t := (after cs).withHandle (searched (after cs).handle p ask) with ht
    have hcount := congrArg Prod.fst (run_satNVars (.inl hafter.plain.valid))
    have hlast : t.handle.lastStatus = (answerOf (after cs).solver p ask).res.code := by
      change (if (answerOf (after cs).solver p ask).interrupted then _ else _) = _
      rw [hi]
      rfl
    by_cases hsat : (answerOf (after cs).solver p ask).res = .sat
    · have hbound : t.solver.maxVar ≤ zusatMaxVar := by
        have hlim := (limited_after (cs ++ [.solve v ask])).2.factorOff
        rw [after_snoc, step_solve_snd, hrun, searched_solve] at hlim
        exact hlim hafter.plain.off.factor
      have hstate : t.solver.state = .satisfied := congrArg SolveRes.state hsat
      have husable : ∀ u ∈ seqLen t.solver.maxVar, t.solver.usable u = true := fun u hu =>
        usable_of_valid (seqLen_valid hbound u hu).1 (hafter.plain.off.ervars _)
      have hnew := run_newSolution_sat (s := t) (by rw [hlast, hsat]; rfl) hstate hbound husable
      rw [hsat, hnew]
      refine ⟨_, rfl, ⟨made, hmade, hanswer ▸ hsat.symm⟩, hcount, fun _ => ?_, fun h => by cases h⟩
      have hmodel := hask.sat _ hsat
      refine ⟨_, (hasked _).mp ⟨_, fun _ _ => rfl, hmodel⟩, rfl, ?_⟩
      refine List.map_congr_left fun u hu => ?_
      obtain ⟨hpos, hle⟩ := mem_seqLen.mp hu
      exact valueOf_afterSearch hafter.plain.off.factor (by omega) hle
    · have hvalid : t.solver.state.valid = true := hafter.plain.valid
      rw [run_newSolution_other hvalid hsat]
      refine ⟨_, rfl, ⟨made, hmade, hanswer ▸ rfl⟩, hcount, fun h => absurd h hsat,
        fun hunsat α hα => ?_⟩
      obtain ⟨β, -, hβ⟩ := (hasked α).mpr hα
      rw [hask.unsat _ hunsat β] at hβ
      cases hβ

/-- The status of a call that returned a solution. -/
def statusOf : Except RError CallResult → Option SolveRes
  | .ok (.solution sol) => some sol.status
  | _ => none

/-- Of two variables one at least, the second by a constraint, the first assumed. -/
theorem solve_answers_pair :
    let cs : List Call := [.cardinality .atLeast (.ints [1, 2]) (.ints [1]) (.chr [some "pairwise"]),
      .constrain (.ints [2])]
    statusOf (step (after cs) (.solve (.ints [1]) guess)).1 = some .sat ∧
      ∃ α, Asked cs [1] (some [2]) α := by
  intro cs
  have hcs : ∀ c ∈ cs, ordinary c := by
    simp [cs, ordinary, leavesFactor, setsOption, defaultProjection]
  have hstatus : statusOf (step (after cs) (.solve (.ints [1]) guess)).1 = some .sat := by decide
  have hgo : (step (after cs) (.solve (.ints [1]) guess)).1 ≠ .error (.stop "solve interrupted") := by
    intro h
    rw [h] at hstatus
    cases hstatus
  obtain ⟨sol, hsol, -, -, hsat, -⟩ := solve_answers cs hcs (.ints [1]) guess correct_guess [1] rfl
    (by decide) hgo
  obtain ⟨α, hα, -⟩ := hsat (by
    rw [hsol] at hstatus
    exact Option.some.inj hstatus)
  exact ⟨hstatus, α, hα⟩

end Session
end Zusat
