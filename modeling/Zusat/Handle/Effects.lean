import Zusat.Cadical.Literals
import Zusat.Cadical.Unfinished
import Zusat.Model.Handle

/-! # What each entry point does, in closed form

The equations of `Cadical.Literals` carried through `zusat.c`: what `zusat_add_clause`,
`zusat_constrain`, `zusat_solve`, `zusat_simplify` and `zusat_reserve` leave behind on each of their
exits, and that the reading entry points leave the handle alone. -/

namespace Zusat
open Foundations Foundations.Prog
set_option autoImplicit false

namespace Handle

/-! ## Calls and arguments -/

@[simp] theorem withSolver_solver (h : Handle) (c : Cadical) : (h.withSolver c).solver = c := rfl

@[simp] theorem withSolver_withSolver (h : Handle) (c c' : Cadical) :
    (h.withSolver c).withSolver c' = h.withSolver c' := rfl

@[simp] theorem withSolver_self (h : Handle) : h.withSolver h.solver = h := rfl

@[simp] theorem invalidate_solver (h : Handle) : (invalidate h).solver = h.solver := rfl

theorem run_call {α : Type} {m : CadicalM α} {h : Handle} {r : Except RError α} {c : Cadical}
    (hm : m.run h.solver = (r, c)) : (call m).run h = (r, h.withSolver c) := by
  rw [call, run_within, hm]

theorem run_each_call {α : Type} {f : α → CadicalM Unit} {xs : List α} {h : Handle}
    {r : Except RError Unit} {c : Cadical} (hr : (each f xs).run h.solver = (r, c)) :
    (each (fun x => call (f x)) xs).run h = (r, h.withSolver c) := by
  have hw : (each (fun x => call (f x)) xs).run h = (call (each f xs)).run h :=
    run_each_within withSolver_self withSolver_solver withSolver_withSolver f xs h
  rw [hw, run_call hr]

theorem checkLits_ok {p : List ℤ} (hp : ∀ l ∈ p, ValidLit l) : checkLits p = .ok () := by
  induction p with
  | nil => rfl
  | cons l p ih =>
    obtain ⟨h0, hm⟩ := hp l (List.mem_cons_self ..)
    have hna : l ≠ naInteger := by
      intro h
      rw [h] at hm
      exact absurd hm (by decide)
    have hmax : ¬(l > zusatMaxVar ∨ l < -zusatMaxVar) := by omega
    rw [checkLits, if_neg hna, if_neg h0, if_neg hmax]
    exact ih fun x hx => hp x (List.mem_cons_of_mem l hx)

/-- `check_lits` passes exactly the valid literals; its refusals are the package's own. -/
theorem checkLits_cases (p : List ℤ) :
    (checkLits p = .ok () ∧ ∀ l ∈ p, ValidLit l) ∨ ∃ t, checkLits p = .error (.stop t) := by
  induction p with
  | nil => exact .inl ⟨rfl, by simp⟩
  | cons l p ih =>
    rw [checkLits]
    split_ifs with hna h0 hmax
    · exact .inr ⟨_, rfl⟩
    · exact .inr ⟨_, rfl⟩
    · exact .inr ⟨_, rfl⟩
    · rcases ih with ⟨hok, hall⟩ | hstop
      · refine .inl ⟨hok, fun x hx => ?_⟩
        rcases List.mem_cons.mp hx with rfl | hx
        · exact ⟨h0, by omega⟩
        · exact hall x hx
      · exact .inr hstop

theorem asInts_cases (text : String) (x : SEXP) :
    (∃ p, x = .int p ∧ asInts text x = .ok p) ∨ asInts text x = .error (.stop text) := by
  cases x with
  | int p => exact .inl ⟨p, rfl, rfl⟩
  | str => exact .inr rfl
  | other => exact .inr rfl

/-! ## Adding a clause -/

theorem run_zusatAddClause {h : Handle} (hv : h.solver.state.valid = true) {p : List ℤ}
    (hp : ∀ l ∈ p, ValidLit l) :
    ((∀ l ∈ p, h.solver.takes l = true) ∧ (zusatAddClause (.int p)).run h =
        (.ok (), (invalidate h).withSolver (h.solver.takeClause p))) ∨
      ∃ q l r e, p = q ++ l :: r ∧ (∀ x ∈ q, h.solver.takes x = true) ∧
        h.solver.takes l = false ∧ RError.fromCadical e = true ∧
        e.isContract = !h.solver.addable l ∧ (zusatAddClause (.int p)).run h =
          (.error e, (invalidate h).withSolver
            ((q.foldl Cadical.pushLit h.solver).stopAdd l)) := by
  have hrun : (zusatAddClause (.int p)).run h =
      andThen ((each (fun l => call (Cadical.add l)) p).run (invalidate h))
        (fun _ => call (Cadical.add 0)) := by
    rw [zusatAddClause, asInts, run_bind, run_ofExcept_ok, andThen_ok, run_bind, checkLits_ok hp,
      run_ofExcept_ok, andThen_ok, run_bind, run_modify, andThen_ok, run_bind]
  rw [hrun]
  rcases Cadical.run_addLits hv (fun l hl => (hp l hl).1) with
    ⟨hall, hr⟩ | ⟨q, l, r, e, rfl, hq, hl, he, hc, hr⟩
  · refine .inl ⟨hall, ?_⟩
    rw [run_each_call (h := invalidate h) hr, andThen_ok,
      run_call (Cadical.run_add_zero (Cadical.valid_foldl_pushLit hv p)),
      withSolver_solver, Cadical.endClause_foldl, withSolver_withSolver]
  · refine .inr ⟨q, l, r, e, rfl, hq, hl, he, hc, ?_⟩
    rw [run_each_call (h := invalidate h) hr, andThen_error]

/-! ## Constraining -/

theorem run_zusatConstrain {h : Handle} (hv : h.solver.state.valid = true) {p : List ℤ}
    (hp : ∀ l ∈ p, ValidLit l) :
    ((∀ l ∈ p, h.solver.accepts l = true) ∧ (zusatConstrain (.int p)).run h =
        (.ok (), { (invalidate h).withSolver (h.solver.takeConstraint p) with
          constraintPending := true })) ∨
      ∃ q l r e, p = q ++ l :: r ∧ (∀ x ∈ q, h.solver.accepts x = true) ∧
        h.solver.accepts l = false ∧ RError.fromCadical e = true ∧
        e.isContract = !h.solver.usable l ∧ (zusatConstrain (.int p)).run h =
          (.error e, (invalidate h).withSolver
            ((q.foldl Cadical.pushConstraint h.solver).stopConstrain l)) := by
  have hrun : (zusatConstrain (.int p)).run h =
      andThen ((each (fun l => call (Cadical.constrain l)) p).run (invalidate h)) (fun _ => do
        call (Cadical.constrain 0)
        modify fun h => { h with constraintPending := true }) := by
    rw [zusatConstrain, asInts, run_bind, run_ofExcept_ok, andThen_ok, run_bind, checkLits_ok hp,
      run_ofExcept_ok, andThen_ok, run_bind, run_modify, andThen_ok, run_bind]
  have hnz : ∀ l ∈ p, l ≠ 0 := fun l hl => (hp l hl).1
  rw [hrun]
  rcases Cadical.run_constrainLits hv hnz with
    ⟨hall, hr⟩ | ⟨q, l, r, e, rfl, hq, hl, he, hc, hr⟩
  · refine .inl ⟨hall, ?_⟩
    rw [run_each_call (h := invalidate h) hr, andThen_ok, run_bind,
      run_call (Cadical.run_constrain_zero (Cadical.valid_foldl_pushConstraint hv hnz)),
      withSolver_solver, Cadical.endConstraint_foldl _ hnz, withSolver_withSolver, andThen_ok,
      run_modify]
  · refine .inr ⟨q, l, r, e, rfl, hq, hl, he, hc, ?_⟩
    rw [run_each_call (h := invalidate h) hr, andThen_error]

/-! ## Searching -/

/-- The handle after a search that returned to C. -/
def finish (h : Handle) (a : Answer) (c : Cadical) : Handle :=
  { h with
    solver := c, interrupted := a.interrupted, constraintPending := false
    lastStatus := if a.interrupted then h.lastStatus else a.res.code
    concludable := if a.interrupted then h.concludable else true }

/-- What a search that returned to C reports to R. -/
def report (what : String) (a : Answer) : Except RError SolveRes :=
  if a.interrupted then .error (.stop s!"{what} interrupted") else .ok a.res

theorem run_search {h : Handle} (what : String) {m : CadicalM Answer} {a : Answer} {c : Cadical}
    (hv : h.solver.state.valid = true) (hm : m.run h.solver = (.ok a, c))
    (hc : c.state.valid = true) : (search what m).run h = (report what a, finish h a c) := by
  have hterm : ∀ c : Cadical, c.state.valid = true → Cadical.setTerminate.run c = (.ok (), c) :=
    fun c hc => Cadical.run_requireValidState hc _
  have hconnect := run_call (h := { h with interrupted := false }) (hterm h.solver hv)
  have hsolve := run_call (h := { h with interrupted := false }) hm
  have hdisconnect := run_call (h := { h with interrupted := a.interrupted, solver := c })
    (hterm c hc)
  rw [search, run_bind, run_modify, andThen_ok, run_bind, hconnect, andThen_ok, run_bind]
  change andThen ((call m).run { h with interrupted := false }) _ = _
  rw [hsolve, andThen_ok, run_bind, run_modify, andThen_ok, run_bind]
  change andThen ((call Cadical.setTerminate).run
    { h with interrupted := a.interrupted, solver := c }) _ = _
  rw [hdisconnect, andThen_ok, run_bind, run_modify, andThen_ok, run_bind, report, finish]
  cases a.interrupted <;> rfl

theorem run_search_error {h : Handle} (what : String) {m : CadicalM Answer} {e : RError} {c : Cadical}
    (hv : h.solver.state.valid = true) (hm : m.run h.solver = (.error e, c)) :
    (search what m).run h = (.error e, { h with interrupted := false, solver := c }) := by
  have hterm : Cadical.setTerminate.run h.solver = (.ok (), h.solver) :=
    Cadical.run_requireValidState hv _
  have hconnect := run_call (h := { h with interrupted := false }) hterm
  have hsolve := run_call (h := { h with interrupted := false }) hm
  rw [search, run_bind, run_modify, andThen_ok, run_bind, hconnect, andThen_ok, run_bind]
  change andThen ((call m).run { h with interrupted := false }) _ = _
  rw [hsolve, andThen_error]
  rfl

/-- The handle when CaDiCaL has found its own result wrong. -/
def unfinished (h : Handle) (c : Cadical) : Handle := { h with interrupted := false, solver := c }

/-- `zusat_solve` on valid assumptions: it searches, an assumption stops it, an unterminated clause
does, or CaDiCaL's check of the result. -/
theorem run_zusatSolve {h : Handle} (hv : h.solver.state.valid = true) {p : List ℤ}
    (hp : ∀ l ∈ p, ValidLit l) (ask : Oracle) :
    ((∀ l ∈ p, h.solver.accepts l = true) ∧
        (p.foldl Cadical.pushAssumption h.solver).state ≠ .adding ∧
        Cadical.searchCheck false ask (p.foldl Cadical.pushAssumption h.solver) = .ok () ∧
        (zusatSolve (.int p) ask).run h =
          (report "solve" (ask (p.foldl Cadical.pushAssumption h.solver).startSearch),
            finish (invalidate h) (ask (p.foldl Cadical.pushAssumption h.solver).startSearch)
              (Cadical.afterSearch false ask (p.foldl Cadical.pushAssumption h.solver)))) ∨
      (∃ q l r e, p = q ++ l :: r ∧ (∀ x ∈ q, h.solver.accepts x = true) ∧
        h.solver.accepts l = false ∧ RError.fromCadical e = true ∧
        e.isContract = !h.solver.usable l ∧ (zusatSolve (.int p) ask).run h =
          (.error e, (invalidate h).withSolver
            ((q.foldl Cadical.pushAssumption h.solver).stopAssume l))) ∨
      (p = [] ∧ h.solver.state = .adding ∧ ∃ t, (zusatSolve (.int p) ask).run h =
          (.error (.contract "solve" t), { invalidate h with interrupted := false })) ∨
      (∃ e, (∀ l ∈ p, h.solver.accepts l = true) ∧
        (p.foldl Cadical.pushAssumption h.solver).state ≠ .adding ∧
        Cadical.searchCheck false ask (p.foldl Cadical.pushAssumption h.solver) = .error e ∧
        (zusatSolve (.int p) ask).run h = (.error e, unfinished (invalidate h)
          (Cadical.recordedSearch false ask (p.foldl Cadical.pushAssumption h.solver)))) := by
  have hrun : (zusatSolve (.int p) ask).run h =
      andThen ((each (fun l => call (Cadical.assume l)) p).run (invalidate h))
        (fun _ => search "solve" (Cadical.solve ask)) := by
    rw [zusatSolve, asInts, run_bind, run_ofExcept_ok, andThen_ok, run_bind, checkLits_ok hp,
      run_ofExcept_ok, andThen_ok, run_bind, run_modify, andThen_ok, run_bind]
  rw [hrun]
  rcases Cadical.run_assumeLits hv p with
    ⟨hall, hr⟩ | ⟨q, l, r, e, rfl, hq, hl, he, hc, hr⟩
  · have hva := Cadical.valid_foldl_pushAssumption hv p
    rw [run_each_call (h := invalidate h) hr, andThen_ok]
    by_cases hadd : (p.foldl Cadical.pushAssumption h.solver).state = .adding
    · right; right; left
      have hnil : p = [] := by
        cases p with
        | nil => rfl
        | cons l p => rw [Cadical.foldl_pushAssumption] at hadd; cases hadd
      subst hnil
      have hrefuse : (Cadical.solve ask).run h.solver = (.error (.contract "solve"
          "clause incomplete (terminating zero not added)"), h.solver) := by
        rw [Cadical.solve, run_bind, Cadical.run_requireReadyState_adding (c := h.solver) hadd,
          andThen_error]
      exact ⟨rfl, hadd, _, run_search_error (h := invalidate h) "solve" hv hrefuse⟩
    · have hsolve := Cadical.run_solve_ready hva hadd ask
      cases hcheck : Cadical.searchCheck false ask (p.foldl Cadical.pushAssumption h.solver) with
      | ok u =>
        rw [Cadical.run_callExternalSolve hcheck] at hsolve
        exact .inl ⟨hall, hadd, rfl, run_search "solve" hva hsolve (SolveRes.state_valid _)⟩
      | error e =>
        rw [Cadical.run_callExternalSolve_failed hcheck] at hsolve
        exact .inr (.inr (.inr ⟨e, hall, hadd, rfl, run_search_error "solve" hva hsolve⟩))
  · refine .inr (.inl ⟨q, l, r, e, rfl, hq, hl, he, hc, ?_⟩)
    rw [run_each_call (h := invalidate h) hr, andThen_error]

theorem run_zusatSimplify {h : Handle} (hv : h.solver.state.valid = true)
    (ha : h.solver.state ≠ .adding) {ask : Oracle}
    (hcheck : Cadical.searchCheck true ask h.solver.limitRounds = .ok ()) :
    (zusatSimplify ask).run h = (report "simplify" (ask h.solver.limitRounds.startSearch),
      finish (invalidate h) (ask h.solver.limitRounds.startSearch)
        (Cadical.afterSearch true ask h.solver.limitRounds)) := by
  have hsimplify := Cadical.run_simplify_ready hv ha ask
  rw [Cadical.run_callExternalSolve hcheck] at hsimplify
  rw [zusatSimplify, run_bind, run_modify, andThen_ok]
  exact run_search (h := invalidate h) "simplify" hv hsimplify (SolveRes.state_valid _)

theorem run_zusatSimplify_failed {h : Handle} (hv : h.solver.state.valid = true)
    (ha : h.solver.state ≠ .adding) {ask : Oracle} {e : RError}
    (hcheck : Cadical.searchCheck true ask h.solver.limitRounds = .error e) :
    (zusatSimplify ask).run h = (.error e,
      unfinished (invalidate h) (Cadical.recordedSearch true ask h.solver.limitRounds)) := by
  have hsimplify := Cadical.run_simplify_ready hv ha ask
  rw [Cadical.run_callExternalSolve_failed hcheck] at hsimplify
  rw [zusatSimplify, run_bind, run_modify, andThen_ok]
  exact run_search_error (h := invalidate h) "simplify" hv hsimplify

theorem run_zusatSimplify_adding {h : Handle} (ha : h.solver.state = .adding) (ask : Oracle) :
    ∃ t, (zusatSimplify ask).run h =
      (.error (.contract "simplify" t), { invalidate h with interrupted := false }) := by
  have hrefuse : (Cadical.simplify ask).run h.solver = (.error (.contract "simplify"
      "clause incomplete (terminating zero not added)"), h.solver) := by
    rw [Cadical.simplify, run_bind, Cadical.run_requireReadyState_adding ha, andThen_error]
  have hv : (invalidate h).solver.state.valid = true := by rw [invalidate_solver, ha]; rfl
  exact ⟨_, by
    rw [zusatSimplify, run_bind, run_modify, andThen_ok,
      run_search_error (h := invalidate h) "simplify" hv hrefuse]
    rfl⟩

/-! ## Reserving -/

/-- The handle after `n` variables have been asked for. -/
def reserved (h : Handle) (n : ℕ) : Handle :=
  if h.solver.maxVar < n then
    (invalidate h).withSolver (Cadical.initVars n h.solver.transitionToSteadyState)
  else h

theorem reserved_maxVar (h : Handle) (n : ℕ) :
    (reserved h n).solver.maxVar = max h.solver.maxVar n := by
  rw [reserved]
  split
  · rfl
  · omega

theorem run_zusatReserve_start {h : Handle} {n : ℕ} (hn : n ≤ zusatMaxVar) :
    (zusatReserve (.int [(n : ℤ)])).run h = andThen ((call Cadical.vars).run h) (fun known => do
      doIf (known < n) do
        modify invalidate
        call (Cadical.declareMoreVariables (n - known))
      call Cadical.vars) := by
  have hna : (n : ℤ) ≠ naInteger := by
    intro h
    have : naInteger < 0 := by decide
    omega
  have hasInt : asInt "number of variables must be a single integer" (.int [(n : ℤ)]) = .ok ↑n := by
    rw [asInt, if_neg hna]
  have hrange : (decide (0 ≤ (n : ℤ)) && decide ((n : ℤ) ≤ zusatMaxVar)) = true := by
    rw [Bool.and_eq_true_iff]
    exact ⟨decide_eq_true (by omega), decide_eq_true (by exact_mod_cast hn)⟩
  rw [zusatReserve, run_bind, hasInt, run_ofExcept_ok, andThen_ok, run_bind, hrange,
    run_require_true, andThen_ok, run_bind]
  rfl

theorem run_zusatReserve {h : Handle} (hv : h.solver.state.valid = true) {n : ℕ}
    (hn : n ≤ zusatMaxVar) :
    (zusatReserve (.int [(n : ℤ)])).run h = (.ok (max h.solver.maxVar n), reserved h n) := by
  have hs : h.solver.state.valid = true ∨ h.solver.state = .solving := .inl hv
  rw [run_zusatReserve_start hn, run_call (Cadical.run_vars hs), andThen_ok, withSolver_self, run_bind]
  by_cases hlt : h.solver.maxVar < n
  · have hd := Cadical.run_declareMoreVariables hv (n - h.solver.maxVar)
    rw [Nat.add_sub_cancel' (Nat.le_of_lt hlt)] at hd
    rw [decide_eq_true hlt, run_doIf_true, run_bind, run_modify, andThen_ok,
      run_call (h := invalidate h) hd, andThen_ok, run_call (Cadical.run_vars (.inl rfl)), reserved,
      if_pos hlt]
    rfl
  · rw [decide_eq_false hlt, run_doIf_false, andThen_ok, run_call (Cadical.run_vars hs), reserved,
      if_neg hlt, max_eq_left (Nat.le_of_not_lt hlt), withSolver_self]

/-- Every refusal of `zusat_reserve` is its own and comes before it does anything. -/
theorem zusatReserve_cases (h : Handle) (x : SEXP) :
    (∃ n : ℕ, n ≤ zusatMaxVar ∧ x = .int [(n : ℤ)]) ∨
      ∃ t, (zusatReserve x).run h = (.error (.stop t), h) := by
  cases hx : asInt "number of variables must be a single integer" x with
  | error e =>
    have he : e = .stop "number of variables must be a single integer" := by
      rw [asInt.eq_def] at hx
      split at hx
      · split_ifs at hx
        exact (Except.error.inj hx).symm
      · exact (Except.error.inj hx).symm
    exact .inr ⟨_, by rw [zusatReserve, run_bind, hx, run_ofExcept_error, andThen_error, he]⟩
  | ok z =>
    have hz : x = .int [z] := by
      rw [asInt.eq_def] at hx
      split at hx
      · split_ifs at hx
        rw [Except.ok.inj hx]
      · cases hx
    cases hr : (decide (0 ≤ z) && decide (z ≤ (zusatMaxVar : ℤ))) with
    | false =>
      exact .inr ⟨_, by
        rw [zusatReserve, run_bind, hx, run_ofExcept_ok, andThen_ok, run_bind, hr,
          run_require_false, andThen_error]⟩
    | true =>
      obtain ⟨h0, hm⟩ := Bool.and_eq_true_iff.mp hr
      have h0' := of_decide_eq_true h0
      have hm' := of_decide_eq_true hm
      exact .inl ⟨z.toNat, by omega, by rw [hz, Int.toNat_of_nonneg h0']⟩

/-! ## A solver left in a search -/

section Unfinished
variable {h : Handle}

theorem run_zusatAddClause_solving (hs : h.solver.state = .solving) {p : List ℤ}
    (hp : ∀ l ∈ p, ValidLit l) :
    (zusatAddClause (.int p)).run h = (.error (Cadical.invalidState "add"), invalidate h) := by
  have hadd : ∀ l, (call (Cadical.add l)).run (invalidate h) =
      (.error (Cadical.invalidState "add"), invalidate h) := fun l =>
    run_call (Cadical.run_add_solving (c := h.solver) hs l)
  rw [zusatAddClause, asInts, run_bind, run_ofExcept_ok, andThen_ok, run_bind, checkLits_ok hp,
    run_ofExcept_ok, andThen_ok, run_bind, run_modify, andThen_ok, run_bind]
  cases p with
  | nil => rw [run_each_nil, andThen_ok, hadd]
  | cons l p => rw [run_each_cons, hadd, andThen_error, andThen_error]

theorem run_zusatConstrain_solving (hs : h.solver.state = .solving) {p : List ℤ}
    (hp : ∀ l ∈ p, ValidLit l) :
    (zusatConstrain (.int p)).run h = (.error (Cadical.invalidState "constrain"), invalidate h) := by
  have hcon : ∀ l, (call (Cadical.constrain l)).run (invalidate h) =
      (.error (Cadical.invalidState "constrain"), invalidate h) := fun l =>
    run_call (Cadical.run_constrain_solving (c := h.solver) hs l)
  rw [zusatConstrain, asInts, run_bind, run_ofExcept_ok, andThen_ok, run_bind, checkLits_ok hp,
    run_ofExcept_ok, andThen_ok, run_bind, run_modify, andThen_ok, run_bind]
  cases p with
  | nil => rw [run_each_nil, andThen_ok, run_bind, hcon, andThen_error]
  | cons l p => rw [run_each_cons, hcon, andThen_error, andThen_error]

theorem run_search_solving (hs : h.solver.state = .solving) (what : String) (m : CadicalM Answer) :
    (search what m).run h =
      (.error (Cadical.invalidState "connect_terminator"), unfinished h h.solver) := by
  have hterm : (call Cadical.setTerminate).run { h with interrupted := false } =
      (.error (Cadical.invalidState "connect_terminator"), unfinished h h.solver) :=
    run_call (Cadical.run_setTerminate_solving (c := h.solver) hs)
  rw [search, run_bind, run_modify, andThen_ok, run_bind, hterm, andThen_error]

theorem run_zusatSolve_solving (hs : h.solver.state = .solving) {p : List ℤ} (hp : ∀ l ∈ p, ValidLit l) :
    ∃ fn h', (h' = invalidate h ∨ h' = unfinished (invalidate h) h.solver) ∧
      ∀ ask, (zusatSolve (.int p) ask).run h = (.error (Cadical.invalidState fn), h') := by
  have hstart : ∀ ask, (zusatSolve (.int p) ask).run h =
      (each (fun l => call (Cadical.assume l)) p >>= fun _ =>
        search "solve" (Cadical.solve ask)).run (invalidate h) := fun ask => by
    rw [zusatSolve, asInts, run_bind, run_ofExcept_ok, andThen_ok, run_bind, checkLits_ok hp,
      run_ofExcept_ok, andThen_ok, run_bind, run_modify, andThen_ok]
  cases p with
  | nil =>
    refine ⟨"connect_terminator", _, .inr rfl, fun ask => ?_⟩
    have hrun := run_search_solving (h := invalidate h) hs "solve" (Cadical.solve ask)
    rw [hstart, run_bind, run_each_nil, andThen_ok, hrun]
    rfl
  | cons l p =>
    have hassume : (call (Cadical.assume l)).run (invalidate h) =
        (.error (Cadical.invalidState "assume"), invalidate h) :=
      run_call (Cadical.run_assume_solving (c := h.solver) hs l)
    refine ⟨"assume", _, .inl rfl, fun ask => ?_⟩
    rw [hstart, run_bind, run_each_cons, hassume, andThen_error, andThen_error]

theorem run_zusatSimplify_solving (hs : h.solver.state = .solving) (ask : Oracle) :
    (zusatSimplify ask).run h = (.error (Cadical.invalidState "connect_terminator"),
      unfinished (invalidate h) h.solver) := by
  have hrun := run_search_solving (h := invalidate h) hs "simplify" (Cadical.simplify ask)
  rw [zusatSimplify, run_bind, run_modify, andThen_ok, hrun]
  rfl

theorem run_zusatReserve_solving (hs : h.solver.state = .solving) {n : ℕ} (hn : n ≤ zusatMaxVar) :
    (zusatReserve (.int [(n : ℤ)])).run h = if h.solver.maxVar < n then
      (.error (Cadical.invalidState "declare_more_variables"), invalidate h)
    else (.ok h.solver.maxVar, h) := by
  have hvars := Cadical.run_vars (.inr hs)
  rw [run_zusatReserve_start hn, run_call hvars, andThen_ok, withSolver_self, run_bind]
  by_cases hlt : h.solver.maxVar < n
  · have hdeclare : (call (Cadical.declareMoreVariables (n - h.solver.maxVar))).run (invalidate h) =
        (.error (Cadical.invalidState "declare_more_variables"), invalidate h) :=
      run_call (Cadical.run_declareMoreVariables_solving (c := h.solver) hs _)
    rw [decide_eq_true hlt, run_doIf_true, run_bind, run_modify, andThen_ok, hdeclare, andThen_error,
      if_pos hlt]
  · rw [decide_eq_false hlt, run_doIf_false, andThen_ok, run_call hvars, withSolver_self, if_neg hlt]

end Unfinished

/-! ## Reading results -/

/-- What `zusat_value` reports for one variable. -/
def valueOf (c : Cadical) (v : ℤ) : Option Bool :=
  if v > c.maxVar then none else if c.ival v = 0 then none else some (decide (c.ival v > 0))

theorem run_zusatValue {h : Handle} (hl : h.lastStatus = 10)
    (hs : h.solver.state = .satisfied) {p : List ℤ} (hp : ∀ l ∈ p, ValidLit l)
    (hu : ∀ l ∈ p, l ≤ h.solver.maxVar → h.solver.usable l = true) :
    (zusatValue (.int p)).run h = (.ok (p.map (valueOf h.solver)), h) := by
  have hv : h.solver.state.valid = true := by rw [hs]; rfl
  have hval : ∀ l ∈ p, l ≤ h.solver.maxVar →
      (call (Cadical.val l)).run h = (.ok (h.solver.ival l), h) := by
    intro l hl hle
    refine run_call ?_
    rw [Cadical.val, run_bind, Cadical.run_requireValidState hv, andThen_ok, run_bind,
      Cadical.run_requireValidLit (hu l hl hle), andThen_ok, run_bind, run_read, andThen_ok,
      run_bind, hs]
    rfl
  rw [zusatValue, run_bind, asInts, run_ofExcept_ok, andThen_ok, run_bind, run_read, andThen_ok,
    run_bind, hl]
  change andThen ((require true _).run h) _ = _
  rw [run_require_true, andThen_ok, run_bind, checkLits_ok hp, run_ofExcept_ok, andThen_ok,
    run_bind, run_call (Cadical.run_vars (.inl hv)), andThen_ok, withSolver_self]
  refine run_collect fun v hv => ?_
  rw [valueOf]
  by_cases hgt : v > (h.solver.maxVar : ℤ)
  · rw [if_pos hgt, if_pos hgt, run_pure]
  · rw [if_neg hgt, if_neg hgt, run_bind, hval v hv (by omega), andThen_ok, run_pure]

theorem run_zusatValue_refused {h : Handle} (hl : h.lastStatus ≠ 10) (p : List ℤ) :
    ∃ t, (zusatValue (.int p)).run h = (.error (.stop t), h) := by
  have hb : (h.lastStatus == 10) = false := beq_eq_false_iff_ne.mpr hl
  exact ⟨_, by
    rw [zusatValue, run_bind, asInts, run_ofExcept_ok, andThen_ok, run_bind, run_read, andThen_ok,
      run_bind, hb, run_require_false, andThen_error]⟩

theorem run_zusatFailed {h : Handle} (hl : h.lastStatus = 20)
    (hs : h.solver.state = .unsatisfied) {p : List ℤ} (hp : ∀ l ∈ p, ValidLit l)
    (hu : ∀ l ∈ p, h.solver.usable l = true) :
    (zusatFailed (.int p)).run h = (.ok (p.map h.solver.failedLits), h) := by
  have hv : h.solver.state.valid = true := by rw [hs]; rfl
  rw [zusatFailed, run_bind, asInts, run_ofExcept_ok, andThen_ok, run_bind, run_read, andThen_ok,
    run_bind, hl]
  change andThen ((require true _).run h) _ = _
  rw [run_require_true, andThen_ok, run_bind, checkLits_ok hp, run_ofExcept_ok, andThen_ok]
  refine run_collect fun l hl => run_call ?_
  rw [Cadical.failed, run_bind, Cadical.run_requireValidState hv, andThen_ok, run_bind,
    Cadical.run_requireValidLit (hu l hl), andThen_ok, run_bind, run_read, andThen_ok, run_bind,
    hs]
  rfl

theorem run_zusatFailed_refused {h : Handle} (hl : h.lastStatus ≠ 20) (p : List ℤ) :
    ∃ t, (zusatFailed (.int p)).run h = (.error (.stop t), h) := by
  have hb : (h.lastStatus == 20) = false := beq_eq_false_iff_ne.mpr hl
  exact ⟨_, by
    rw [zusatFailed, run_bind, asInts, run_ofExcept_ok, andThen_ok, run_bind, run_read, andThen_ok,
      run_bind, hb, run_require_false, andThen_error]⟩

theorem run_zusatConclude {h : Handle} (hc : h.concludable = true)
    (hs : h.solver.state.ended = true) : zusatConclude.run h = (.ok (), h) := by
  have hv : h.solver.state.valid = true := by
    cases hst : h.solver.state <;> rw [hst] at hs <;> first | rfl | exact hs
  rw [zusatConclude, run_bind, run_read, andThen_ok, run_bind, hc, run_require_true, andThen_ok]
  refine run_call ?_
  rw [Cadical.conclude, run_bind, Cadical.run_requireValidState hv, andThen_ok, run_bind,
    run_read, andThen_ok, hs, run_require_true]

theorem run_zusatConclude_refused {h : Handle} (hc : h.concludable = false) :
    ∃ t, zusatConclude.run h = (.error (.stop t), h) :=
  ⟨_, by rw [zusatConclude, run_bind, run_read, andThen_ok, run_bind, hc, run_require_false,
    andThen_error]⟩

end Handle
end Zusat
