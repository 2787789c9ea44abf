import Zusat.Handle.Calls
import Zusat.Session.Effects

/-! # Solving and reading, in closed form -/

namespace Zusat
open Foundations Foundations.Prog
set_option autoImplicit false

namespace Session
open Cadical (Looks)

/-! ## Reading leaves the session alone -/

theorem looks_onHandle {α : Type} {m : HandleM α} (hm : Looks m) : Looks (onHandle m) :=
  Moves.within hm (fun _ _ h => by rw [h, withHandle_self])
    (fun _ _ _ h => by rw [h, withHandle_self])

theorem looks_satNVars : Looks satNVars := looks_onHandle (Handle.looks_call Cadical.looks_vars)

theorem looks_satValue (vars : RValue) : Looks (satValue vars) :=
  along_still.bind (Handle.looks_ofExcept _) fun _ => looks_onHandle (Handle.looks_zusatValue _)

theorem looks_satValueAll : Looks satValueAll :=
  along_still.bind looks_satNVars fun _ => looks_satValue _

theorem looks_solutionRows (status : SolveRes) : Looks (solutionRows status) := by
  rw [solutionRows]
  split
  · exact along_still.bind looks_satNVars fun _ => along_still.bind (looks_satValue _) fun _ =>
      along_still.pure _
  · exact along_still.pure _

theorem looks_newSolution (status : SolveRes) : Looks (newSolution status) :=
  along_still.bind (looks_solutionRows status) fun _ => along_still.bind looks_satNVars fun _ =>
    along_still.bind (looks_onHandle (Handle.looks_call (Cadical.looks_requireValidState _)))
      fun _ => along_still.pure _

theorem looks_satGetOption (name : List (Option String)) : Looks (satGetOption name) :=
  along_still.bind (Handle.looks_ofExcept _) fun _ => looks_onHandle
    (along_still.bind (Handle.looks_ofExcept _) fun _ => Handle.looks_call (Cadical.looks_get _))

/-! ## Models -/

theorem mem_seqLen {n : ℕ} {l : ℤ} : l ∈ seqLen n ↔ 1 ≤ l ∧ l ≤ n := by
  rw [seqLen, List.mem_map]
  constructor
  · rintro ⟨i, hi, rfl⟩
    have := List.mem_range.mp hi
    omega
  · rintro ⟨h1, hn⟩
    exact ⟨(l - 1).toNat, List.mem_range.mpr (by omega), by omega⟩

theorem asVariables_ints {arg : String} {vs : List ℤ} (hv : ∀ v ∈ vs, ValidLit v ∧ 0 < v) :
    asVariables arg (.ints vs) = .ok vs := by
  have hpos : vs.any (· < 0) = false := by
    rw [List.any_eq_false]
    intro v hmem
    have := (hv v hmem).2
    simp only [decide_eq_true_eq]
    omega
  rw [asVariables, asLiterals_ints fun v hmem => (hv v hmem).1]
  simp only [hpos]
  rfl

theorem seqLen_valid {n : ℕ} (hn : n ≤ zusatMaxVar) : ∀ v ∈ seqLen n, ValidLit v ∧ 0 < v := by
  intro v hv
  have := mem_seqLen.mp hv
  exact ⟨⟨by omega, by omega⟩, by omega⟩

section Models
variable {s : Session}

theorem run_satNVars (hs : s.solver.state.valid = true ∨ s.solver.state = .solving) :
    satNVars.run s = (.ok s.solver.maxVar, s) :=
  run_onHandle (Handle.run_call (Cadical.run_vars hs))

/-- A model can be read, variable by variable. -/
theorem run_satValue (hl : s.handle.lastStatus = 10) (hs : s.solver.state = .satisfied)
    {vs : List ℤ} (hvs : ∀ v ∈ vs, ValidLit v ∧ 0 < v)
    (hu : ∀ v ∈ vs, v ≤ s.solver.maxVar → s.solver.usable v = true) :
    (satValue (.ints vs)).run s = (.ok (vs.map (Handle.valueOf s.solver)), s) := by
  rw [satValue, run_bind, asVariables_ints hvs, run_ofExcept_ok, andThen_ok,
    run_onHandle (Handle.run_zusatValue hl hs (fun v hv => (hvs v hv).1) hu), withHandle_self]

theorem run_irredundant (hv : s.solver.state.valid = true) :
    (onHandle (Handle.call Cadical.irredundant)).run s = (.ok (), s) :=
  run_onHandle (Handle.run_call (Cadical.run_requireValidState hv _))

theorem run_newSolution_sat (hl : s.handle.lastStatus = 10) (hs : s.solver.state = .satisfied)
    (hn : s.solver.maxVar ≤ zusatMaxVar)
    (hu : ∀ v ∈ seqLen s.solver.maxVar, s.solver.usable v = true) :
    (newSolution .sat).run s = (.ok ⟨seqLen s.solver.maxVar,
      (seqLen s.solver.maxVar).map (Handle.valueOf s.solver), .sat, s.solver.maxVar⟩, s) := by
  have hv : s.solver.state.valid = true := by rw [hs]; rfl
  rw [newSolution, run_bind, solutionRows, if_pos rfl, run_bind, run_satNVars (.inl hv), andThen_ok,
    run_bind, run_satValue hl hs (seqLen_valid hn) (fun v hmem _ => hu v hmem), andThen_ok, run_pure,
    andThen_ok, run_bind, run_satNVars (.inl hv), andThen_ok, run_bind, run_irredundant hv, andThen_ok,
    run_pure]

theorem run_newSolution_other (hv : s.solver.state.valid = true) {r : SolveRes} (hr : r ≠ .sat) :
    (newSolution r).run s = (.ok ⟨[], [], r, s.solver.maxVar⟩, s) := by
  rw [newSolution, run_bind, solutionRows, if_neg hr, run_pure, andThen_ok, run_bind,
    run_satNVars (.inl hv), andThen_ok, run_bind, run_irredundant hv, andThen_ok, run_pure]

/-- The solution an accepted `sat_solve` returns carries the status it was made for. -/
theorem newSolution_status {r : SolveRes} {sol : Solution} {s' : Session}
    (h : (newSolution r).run s = (.ok sol, s')) : sol.status = r := by
  obtain ⟨rows, s₁, -, h⟩ := run_bind_ok.mp h
  obtain ⟨n, s₂, -, h⟩ := run_bind_ok.mp h
  obtain ⟨u, s₃, -, h⟩ := run_bind_ok.mp h
  rw [run_pure] at h
  cases h
  rfl

end Models

/-! ## `sat_solve` -/

/-- The assumptions `sat_solve` hands over. -/
def solveHands (aux : List AuxRange) (v : RValue) : Except RError (List ℤ) := do
  let lits ← asLiterals "assumptions" v
  checkNotAux aux lits "assumptions"
  return lits

theorem run_satSolve (v : RValue) (ask : Oracle) (s : Session) :
    (satSolve v ask).run s = (ofExcept (solveHands s.aux v) >>= fun lits =>
      onHandle (Handle.zusatSolve (.int lits) ask) >>= newSolution).run s := by
  rw [satSolve, solveHands, run_ofExcept_bind]
  cases asLiterals "assumptions" v with
  | error e => rfl
  | ok lits =>
    refine (run_refuseAux_bind lits "assumptions"
      (fun _ => onHandle (Handle.zusatSolve (.int lits) ask) >>= newSolution) s).trans ?_
    rw [run_bind, run_bind, run_ofExcept_ok, andThen_ok, run_ofExcept_bind]
    rfl

theorem solveHands_ok {aux : List AuxRange} {v : RValue} {p : List ℤ}
    (h : solveHands aux v = .ok p) : asLiterals "assumptions" v = .ok p ∧
      checkNotAux aux p "assumptions" = .ok () ∧ ∀ l ∈ p, ValidLit l := by
  obtain ⟨p', hp, h⟩ := except_bind_ok.mp h
  obtain ⟨_, hcheck, h⟩ := except_bind_ok.mp h
  obtain rfl := Except.ok.inj h
  exact ⟨hp, hcheck, asLiterals_valid hp⟩

/-- The solver a search under the assumptions `p` starts from. -/
def assuming (c : Cadical) (p : List ℤ) : Cadical := p.foldl Cadical.pushAssumption c

theorem assuming_maxVar (c : Cadical) (p : List ℤ) :
    (assuming c p).maxVar = max c.maxVar (topVar p) := by
  cases p with
  | nil => exact (Nat.max_zero _).symm
  | cons l p => rw [assuming, Cadical.foldl_pushAssumption]; rfl

/-- What that search answers. -/
def answerOf (c : Cadical) (p : List ℤ) (ask : Oracle) : Answer := ask (assuming c p).startSearch

/-- The handle when that search has returned. -/
def searched (h : Handle) (p : List ℤ) (ask : Oracle) : Handle :=
  Handle.finish (Handle.invalidate h) (answerOf h.solver p ask)
    (Cadical.afterSearch false ask (assuming h.solver p))

/-- The handle when that search was left because its answer failed a check. -/
def abandoned (h : Handle) (p : List ℤ) (ask : Oracle) : Handle :=
  Handle.unfinished (Handle.invalidate h) (Cadical.recordedSearch false ask (assuming h.solver p))

theorem satSolve_cases {s : Session} (hv : s.solver.state.valid = true) (v : RValue)
    (ask : Oracle) :
    (∃ e, solveHands s.aux v = .error e ∧ (satSolve v ask).run s = (.error e, s)) ∨
    (∃ p, solveHands s.aux v = .ok p ∧ (∀ l ∈ p, s.solver.accepts l = true) ∧
      (assuming s.solver p).state ≠ .adding ∧
      Cadical.searchCheck false ask (assuming s.solver p) = .ok () ∧ (satSolve v ask).run s =
        if (answerOf s.solver p ask).interrupted then
          (.error (.stop "solve interrupted"), s.withHandle (searched s.handle p ask))
        else (newSolution (answerOf s.solver p ask).res).run
          (s.withHandle (searched s.handle p ask))) ∨
    (∃ p q l r e, solveHands s.aux v = .ok p ∧ p = q ++ l :: r ∧
      (∀ x ∈ q, s.solver.accepts x = true) ∧ s.solver.accepts l = false ∧
      RError.fromCadical e = true ∧ e.isContract = !s.solver.usable l ∧
      (satSolve v ask).run s = (.error e, s.withHandle ((Handle.invalidate s.handle).withSolver
        ((assuming s.solver q).stopAssume l)))) ∨
    (solveHands s.aux v = .ok [] ∧ s.solver.state = .adding ∧ ∃ t, (satSolve v ask).run s =
      (.error (.contract "solve" t),
        s.withHandle { Handle.invalidate s.handle with interrupted := false })) ∨
    (∃ p e, solveHands s.aux v = .ok p ∧ (∀ l ∈ p, s.solver.accepts l = true) ∧
      (assuming s.solver p).state ≠ .adding ∧
      Cadical.searchCheck false ask (assuming s.solver p) = .error e ∧
      (satSolve v ask).run s = (.error e, s.withHandle (abandoned s.handle p ask))) := by
  rw [run_satSolve]
  cases hh : solveHands s.aux v with
  | error e => exact .inl ⟨e, rfl, rfl⟩
  | ok p =>
    rw [run_bind, run_ofExcept_ok, andThen_ok, run_bind]
    rcases Handle.run_zusatSolve hv (solveHands_ok hh).2.2 ask with
      ⟨hall, hadd, hcheck, hrun⟩ | ⟨q, l, r, e, hp, hq, hl, he, hc, hrun⟩ | ⟨rfl, hadd, t, hrun⟩ |
        ⟨e, hall, hadd, hcheck, hrun⟩
    · refine .inr (.inl ⟨p, rfl, hall, hadd, hcheck, ?_⟩)
      rw [run_onHandle hrun]
      change andThen (Handle.report "solve" (answerOf s.solver p ask),
        s.withHandle (searched s.handle p ask)) newSolution = _
      rw [Handle.report]
      cases (answerOf s.handle.solver p ask).interrupted <;> rfl
    · exact .inr (.inr (.inl ⟨p, q, l, r, e, rfl, hp, hq, hl, he, hc, by
        rw [run_onHandle hrun]; rfl⟩))
    · exact .inr (.inr (.inr (.inl ⟨rfl, hadd, t, by rw [run_onHandle hrun]; rfl⟩)))
    · exact .inr (.inr (.inr (.inr ⟨p, e, rfl, hall, hadd, hcheck, by rw [run_onHandle hrun]; rfl⟩)))

/-- On a solver left in a search. -/
theorem satSolve_cases_solving {s : Session} (hs : s.solver.state = .solving) (v : RValue) :
    (∃ e, solveHands s.aux v = .error e ∧ ∀ ask, (satSolve v ask).run s = (.error e, s)) ∨
    (∃ p fn h', solveHands s.aux v = .ok p ∧ h'.solver = s.solver ∧
      ∀ ask, (satSolve v ask).run s = (.error (Cadical.invalidState fn), s.withHandle h')) := by
  cases hh : solveHands s.aux v with
  | error e => exact .inl ⟨e, rfl, fun ask => by rw [run_satSolve, hh]; rfl⟩
  | ok p =>
    obtain ⟨fn, h', hh', hrun⟩ := Handle.run_zusatSolve_solving (h := s.handle) hs (solveHands_ok hh).2.2
    have hsolver : h'.solver = s.solver := by rcases hh' with rfl | rfl <;> rfl
    refine .inr ⟨p, fn, h', rfl, hsolver, fun ask => ?_⟩
    rw [run_satSolve, hh, run_bind, run_ofExcept_ok, andThen_ok, run_bind, run_onHandle (hrun ask),
      andThen_error]

end Session
end Zusat
