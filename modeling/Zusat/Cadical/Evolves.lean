import Zusat.Cadical.Literals
import Zusat.Cadical.Unfinished

/-! # How a solver can change under calls that hand over given literals

`Evolves K L N c c'` collects what holds between the solver before and after any number of API calls
that hand over literals of `K` in clauses and of `L` in assumptions and constraints and set options of
`N` only, however each call ends: variables and clauses only grow, whatever is new in a clause comes
from `K` or from a clause begun before, whatever is new in an assumption or a constraint from `L`, and
options outside `N` keep their values. It is a preorder, so it carries over
loops and whole functions by the rules of `Foundations.Prog`. -/

namespace Zusat
open Foundations Foundations.Prog
set_option autoImplicit false

namespace Cadical

/-- The literal was there before, or is one of `L` and known by now. -/
def From (L : ℤ → Prop) (old : List ℤ) (top : ℕ) (l : ℤ) : Prop :=
  l = 0 ∨ l ∈ old ∨ (L l ∧ l.natAbs ≤ top)

theorem From.mono {L : ℤ → Prop} {old : List ℤ} {top top' : ℕ} {l : ℤ} (h : From L old top l)
    (ht : top ≤ top') : From L old top' l :=
  h.imp_right (Or.imp_right fun hl => ⟨hl.1, le_trans hl.2 ht⟩)

theorem From.trans {L : ℤ → Prop} {old mid : List ℤ} {top top' : ℕ} {l : ℤ}
    (h : From L mid top' l) (hmid : ∀ x ∈ mid, From L old top x) (ht : top ≤ top') :
    From L old top' l := by
  rcases h with h0 | hm | hL
  · exact .inl h0
  · exact (hmid l hm).mono ht
  · exact .inr (.inr hL)

structure Change (K L : ℤ → Prop) (N : String → Prop) (c c' : Cadical) : Prop where
  settled : c'.Settled
  maxVar : c.maxVar ≤ c'.maxVar
  clauses : ∃ new, c'.clauses = c.clauses ++ new ∧
    ∀ cl ∈ new, ∀ l ∈ cl, From K c.clause c'.maxVar l
  clause : ∀ l ∈ c'.clause, From K c.clause c'.maxVar l
  assumptions : ∀ l ∈ c'.assumptions, From L c.assumptions c'.maxVar l
  constraint : ∀ l ∈ c'.constraint, From L c.constraint c'.maxVar l
  searches : ∃ new, c'.searches = c.searches ++ new ∧ ∀ s ∈ new,
    (∀ l ∈ s.assumptions, From L c.assumptions c'.maxVar l) ∧
    (∀ l ∈ s.constraint, From L c.constraint c'.maxVar l)
  opts : ∀ n, ¬N n → c'.opts n = c.opts n
  ervars : ¬N "factor" → c.opts "factor" = 0 → c'.ervars = c.ervars
  molten : (∀ v, c.moltentab v = true → v ≤ c.maxVar) → ∀ v, c'.moltentab v = true → v ≤ c'.maxVar

/-- The change between two solvers, if the first is in a valid state, and none if it was left in a search. -/
def Evolves (K L : ℤ → Prop) (N : String → Prop) (c c' : Cadical) : Prop :=
  (c.Settled → Change K L N c c') ∧ Stands c c'

theorem Change.trans {K L : ℤ → Prop} {N : String → Prop} {a b c : Cadical} (h : Change K L N a b)
    (h' : Change K L N b c) : Change K L N a c where
  settled := h'.settled
  maxVar := le_trans h.maxVar h'.maxVar
  clauses := by
    obtain ⟨n₁, e₁, f₁⟩ := h.clauses
    obtain ⟨n₂, e₂, f₂⟩ := h'.clauses
    refine ⟨n₁ ++ n₂, by rw [e₂, e₁, List.append_assoc], fun cl hcl l hl => ?_⟩
    rcases List.mem_append.mp hcl with hcl | hcl
    · exact (f₁ cl hcl l hl).mono h'.maxVar
    · exact (f₂ cl hcl l hl).trans h.clause h'.maxVar
  clause l hl := (h'.clause l hl).trans h.clause h'.maxVar
  assumptions l hl := (h'.assumptions l hl).trans h.assumptions h'.maxVar
  constraint l hl := (h'.constraint l hl).trans h.constraint h'.maxVar
  searches := by
    obtain ⟨n₁, e₁, f₁⟩ := h.searches
    obtain ⟨n₂, e₂, f₂⟩ := h'.searches
    refine ⟨n₁ ++ n₂, by rw [e₂, e₁, List.append_assoc], fun s hs => ?_⟩
    rcases List.mem_append.mp hs with hs | hs
    · exact ⟨fun l hl => ((f₁ s hs).1 l hl).mono h'.maxVar,
        fun l hl => ((f₁ s hs).2 l hl).mono h'.maxVar⟩
    · exact ⟨fun l hl => ((f₂ s hs).1 l hl).trans h.assumptions h'.maxVar,
        fun l hl => ((f₂ s hs).2 l hl).trans h.constraint h'.maxVar⟩
  opts n hn := (h'.opts n hn).trans (h.opts n hn)
  ervars hn h0 := (h'.ervars hn ((h.opts _ hn).trans h0)).trans (h.ervars hn h0)
  molten hm := h'.molten (h.molten hm)

/-- A change that leaves clauses, assumptions, constraint and searches as they are. -/
theorem Change.of_same {K L : ℤ → Prop} {N : String → Prop} {c c' : Cadical}
    (hv : c'.Settled) (hm : c.maxVar ≤ c'.maxVar) (hcs : c'.clauses = c.clauses)
    (hc : c'.clause = c.clause) (ha : c'.assumptions = c.assumptions)
    (hk : c'.constraint = c.constraint) (hs : c'.searches = c.searches)
    (ho : ∀ n, ¬N n → c'.opts n = c.opts n) (he : c'.ervars = c.ervars)
    (ht : c'.moltentab = c.moltentab) : Change K L N c c' where
  settled := hv
  maxVar := hm
  clauses := ⟨[], by rw [hcs, List.append_nil], by simp⟩
  clause l hl := .inr (.inl (hc ▸ hl))
  assumptions l hl := .inr (.inl (ha ▸ hl))
  constraint l hl := .inr (.inl (hk ▸ hl))
  searches := ⟨[], by rw [hs, List.append_nil], by simp⟩
  opts := ho
  ervars _ _ := he
  molten h v hv := le_trans (h v (ht ▸ hv)) hm

theorem Change.refl {K L : ℤ → Prop} {N : String → Prop} {c : Cadical} (hv : c.Settled) :
    Change K L N c c :=
  .of_same hv le_rfl rfl rfl rfl rfl rfl (fun _ _ => rfl) rfl rfl

theorem along_evolves (K L : ℤ → Prop) (N : String → Prop) :
    Along (Evolves K L N) (fun _ : RError => Evolves K L N) :=
  .of_preorder (fun _ => ⟨fun hs => .refl hs, fun _ => rfl⟩) (fun h h' =>
    ⟨fun hs => (h.1 hs).trans (h'.1 (h.1 hs).settled), along_stands.trans h.2 h'.2⟩)

/-! ## The steps the API functions are made of -/

section Steps
variable {K L : ℤ → Prop} {N : String → Prop} {c : Cadical}

theorem change_transition : Change K L N c c.transitionToSteadyState where
  settled := .inl rfl
  maxVar := le_rfl
  clauses := ⟨[], (List.append_nil _).symm, by simp⟩
  clause l hl := .inr (.inl hl)
  assumptions l hl := by
    rw [transitionToSteadyState] at hl
    cases he : c.state.ended <;> simp only [he, if_true, if_false, Bool.false_eq_true] at hl
    · exact .inr (.inl hl)
    · cases hl
  constraint l hl := by
    rw [transitionToSteadyState] at hl
    cases he : c.state.ended <;> simp only [he, if_true, if_false, Bool.false_eq_true] at hl
    · exact .inr (.inl hl)
    · cases hl
  searches := ⟨[], (List.append_nil _).symm, by simp⟩
  opts _ _ := rfl
  ervars _ _ := rfl
  molten h := h

theorem change_original (p : List ℤ) (hs : c.Settled) :
    Change K L N c { c with original := p } :=
  .of_same hs le_rfl rfl rfl rfl rfl rfl (fun _ _ => rfl) rfl rfl

theorem change_initVars (hv : c.Settled) (n : ℕ) : Change K L N c (initVars n c) :=
  .of_same hv (le_max_left ..) rfl rfl rfl rfl rfl (fun _ _ => rfl) rfl rfl

theorem change_pushLit {l : ℤ} (hl : K l) : Change K L N c (c.pushLit l) where
  settled := .inl rfl
  maxVar := le_max_left ..
  clauses := ⟨[], (List.append_nil _).symm, by simp⟩
  clause x hx := by
    rcases List.mem_append.mp hx with hx | hx
    · exact .inr (.inl hx)
    · rw [List.mem_singleton.mp hx]
      exact .inr (.inr ⟨hl, le_max_right ..⟩)
  assumptions x hx := ((change_transition (K := K) (L := L) (N := N) (c := c)).assumptions x hx).mono
    (le_max_left ..)
  constraint x hx := ((change_transition (K := K) (L := L) (N := N) (c := c)).constraint x hx).mono
    (le_max_left ..)
  searches := ⟨[], (List.append_nil _).symm, by simp⟩
  opts _ _ := rfl
  ervars _ _ := rfl
  molten h v hv := le_trans (h v hv) (le_max_left ..)

theorem change_endClause : Change K L N c c.endClause where
  settled := .inl rfl
  maxVar := le_rfl
  clauses := ⟨[c.clause], rfl, fun cl hcl l hl => .inr (.inl (List.mem_singleton.mp hcl ▸ hl))⟩
  clause l hl := by cases hl
  assumptions := (change_transition (K := K) (L := L) (N := N) (c := c)).assumptions
  constraint := (change_transition (K := K) (L := L) (N := N) (c := c)).constraint
  searches := ⟨[], (List.append_nil _).symm, by simp⟩
  opts _ _ := rfl
  ervars _ _ := rfl
  molten h := h

theorem change_openConstraint (hv : c.Settled) : Change K L N c c.openConstraint where
  settled := hv
  maxVar := le_rfl
  clauses := ⟨[], (List.append_nil _).symm, by simp⟩
  clause l hl := .inr (.inl hl)
  assumptions l hl := .inr (.inl hl)
  constraint l hl := by
    rw [openConstraint] at hl
    by_cases h0 : c.constraint.getLast? = some 0
    · simp only [h0, if_true] at hl
      cases hl
    · simp only [h0, if_false] at hl
      exact .inr (.inl hl)
  searches := ⟨[], (List.append_nil _).symm, by simp⟩
  opts _ _ := rfl
  ervars _ _ := rfl
  molten h := h

/-- One more literal, or the terminating zero, at the end of the constraint. -/
theorem change_appendConstraint {l : ℤ} (hl : l = 0 ∨ (L l ∧ l.natAbs ≤ c.maxVar)) (b : Bool)
    {st : ApiState} (hst : st.valid = true) : Change K L N c
      { c with constraint := c.constraint ++ [l], addingConstraint := b, state := st } where
  settled := .inl hst
  maxVar := le_rfl
  clauses := ⟨[], (List.append_nil _).symm, by simp⟩
  clause x hx := .inr (.inl hx)
  assumptions x hx := .inr (.inl hx)
  constraint x hx := by
    rcases List.mem_append.mp hx with hx | hx
    · exact .inr (.inl hx)
    · rw [List.mem_singleton.mp hx]
      exact hl.imp_right .inr
  searches := ⟨[], (List.append_nil _).symm, by simp⟩
  opts _ _ := rfl
  ervars _ _ := rfl
  molten h := h

theorem change_pushConstraint {l : ℤ} (hl : L l) : Change K L N c (c.pushConstraint l) := by
  have h1 : Change K L N c c.transitionToSteadyState.openConstraint :=
    change_transition.trans (change_openConstraint (.inl rfl))
  have h2 := h1.trans (change_initVars (n := l.natAbs) (.inl rfl))
  exact h2.trans (change_appendConstraint (.inr ⟨hl, le_max_right ..⟩) true rfl)

theorem change_endConstraint : Change K L N c c.endConstraint := by
  have h1 : Change K L N c c.transitionToSteadyState.openConstraint :=
    change_transition.trans (change_openConstraint (.inl rfl))
  exact h1.trans (change_appendConstraint (.inl rfl) false rfl)

theorem change_pushAssumption {l : ℤ} (hl : L l) : Change K L N c (c.pushAssumption l) where
  settled := .inl rfl
  maxVar := le_max_left ..
  clauses := ⟨[], (List.append_nil _).symm, by simp⟩
  clause x hx := .inr (.inl hx)
  assumptions x hx := by
    rcases List.mem_append.mp hx with hx | hx
    · exact ((change_transition (K := K) (L := L) (N := N) (c := c)).assumptions x hx).mono (le_max_left ..)
    · rw [List.mem_singleton.mp hx]
      exact .inr (.inr ⟨hl, le_max_right ..⟩)
  constraint x hx := ((change_transition (K := K) (L := L) (N := N) (c := c)).constraint x hx).mono
    (le_max_left ..)
  searches := ⟨[], (List.append_nil _).symm, by simp⟩
  opts _ _ := rfl
  ervars _ _ := rfl
  molten h v hv := le_trans (h v hv) (le_max_left ..)

theorem extensionOf_eq_zero (h : c.opts "factor" = 0) (a : Answer) : c.extensionOf a = 0 := by
  rw [extensionOf, if_neg (not_not.mpr h)]

theorem change_updateMolten (hv : c.Settled) : Change K L N c c.updateMoltenLiterals := by
  rw [updateMoltenLiterals]
  split
  · refine ⟨hv, le_rfl, ⟨[], (List.append_nil _).symm, by simp⟩, fun l hl => .inr (.inl hl),
      fun l hl => .inr (.inl hl), fun l hl => .inr (.inl hl),
      ⟨[], (List.append_nil _).symm, by simp⟩, fun _ _ => rfl, fun _ _ => rfl, fun h v hm => ?_⟩
    rcases Bool.or_eq_true_iff.mp hm with hm | hm
    · exact h v hm
    · exact of_decide_eq_true (Bool.and_eq_true_iff.mp hm).2
  · exact .refl hv

theorem change_recordSearch (hv : c.Settled) (pre : Bool) (a : Answer) :
    Change K L N c (recordSearch pre a c) where
  settled := hv
  maxVar := Nat.le_add_right ..
  clauses := ⟨[], (List.append_nil _).symm, by simp⟩
  clause l hl := .inr (.inl hl)
  assumptions l hl := .inr (.inl hl)
  constraint l hl := .inr (.inl hl)
  searches := ⟨[⟨pre, c.maxVar, c.assumptions, c.constraint, a⟩], rfl, by
    intro s hs
    rw [List.mem_singleton.mp hs]
    exact ⟨fun l hl => .inr (.inl hl), fun l hl => .inr (.inl hl)⟩⟩
  opts _ _ := rfl
  ervars _ h0 := by
    funext v
    have hext := extensionOf_eq_zero h0 a
    simp only [recordSearch, hext, Nat.add_zero]
    by_cases hlt : c.maxVar < v
    · simp [hlt, Nat.not_le.mpr hlt]
    · simp [hlt]
  molten h v hm := le_trans (h v hm) (Nat.le_add_right ..)

theorem startSearch_eq : c.startSearch =
    { c.transitionToSteadyState.updateMoltenLiterals with state := .solving } := by
  rw [startSearch, updateMoltenLiterals, updateMoltenLiterals]
  split <;> rfl

theorem startSearch_state : c.startSearch.state = .solving := by
  rw [startSearch_eq]

theorem change_ended {st : ApiState} (pre : Bool) (ask : Oracle) (limits : List (String × ℤ))
    (hst : st.valid = true ∨ st = .solving ∧ c.opts "check" ≠ 0) :
    Change K L N c { recordedSearch pre ask c with limits := limits, state := st } := by
  have h : Change K L N c c.transitionToSteadyState.updateMoltenLiterals :=
    change_transition.trans (change_updateMolten (.inl rfl))
  -- a search passes through SOLVING, whatever state it ends in
  rw [recordedSearch]
  generalize ask c.startSearch = a
  have hopts : (recordSearch pre a c.startSearch).opts = c.opts := by
    rw [startSearch_eq, updateMoltenLiterals]
    split <;> rfl
  rw [startSearch_eq] at hopts ⊢
  refine (h.trans (change_recordSearch h.settled pre a)).trans
    (.of_same ?_ le_rfl rfl rfl rfl rfl rfl (fun _ _ => rfl) rfl rfl)
  exact hst.imp_right (And.imp_right fun hne => by rw [hopts]; exact hne)

theorem change_afterSearch (pre : Bool) (ask : Oracle) : Change K L N c (afterSearch pre ask c) :=
  change_ended pre ask [] (.inl (SolveRes.state_valid _))

/-- Only with option `check` can a check fail. -/
theorem change_recordedSearch {pre : Bool} {ask : Oracle} {e : RError}
    (hcheck : searchCheck pre ask c = .error e) : Change K L N c (recordedSearch pre ask c) := by
  have hon : c.opts "check" ≠ 0 := by
    intro hoff
    rw [searchCheck_off hoff] at hcheck
    cases hcheck
  have h := change_ended (K := K) (L := L) (N := N) pre ask (recordedSearch pre ask c).limits (.inr ⟨rfl, hon⟩)
  rwa [← startSearch_state (c := c)] at h

theorem change_foldl {f : Cadical → ℤ → Cadical} {P : ℤ → Prop}
    (hf : ∀ c l, P l → Change K L N c (f c l)) (hv : c.Settled) {ls : List ℤ}
    (hls : ∀ l ∈ ls, P l) : Change K L N c (ls.foldl f c) := by
  induction ls generalizing c with
  | nil => exact .refl hv
  | cons l ls ih =>
    have h := hf c l (hls l (List.mem_cons_self ..))
    exact h.trans (ih h.settled fun x hx => hls x (List.mem_cons_of_mem l hx))

theorem change_takeClause (hv : c.Settled) {p : List ℤ} (hp : ∀ l ∈ p, K l) :
    Change K L N c (c.takeClause p) := by
  rw [← endClause_foldl]
  exact (change_foldl (fun c l hl => change_pushLit hl) hv hp).trans change_endClause

theorem change_takeConstraint (hv : c.Settled) {p : List ℤ} (hp : ∀ l ∈ p, l ≠ 0)
    (hL : ∀ l ∈ p, L l) : Change K L N c (c.takeConstraint p) := by
  rw [← endConstraint_foldl c hp]
  exact (change_foldl (fun c l hl => change_pushConstraint hl) hv hL).trans change_endConstraint

end Steps

/-! ## The API functions -/

section Api
variable {K L : ℤ → Prop} {N : String → Prop}

/-- Nothing is to be shown of a solver that was left in a search. -/
theorem evolves_of_valid {α : Type} {m : CadicalM α} (hstands : Respects Stands m)
    (h : ∀ c, c.state.valid = true → Change K L N c (m.run c).2) : Respects (Evolves K L N) m := by
  refine respects_of_snd fun c => ⟨fun hs => ?_, hstands.snd c⟩
  rcases hs.valid_or_solving with hv | hsolving
  · exact h c hv
  · rw [hstands.snd c hsolving]
    exact .refl hs

theorem evolves_add {l : ℤ} (hl : l = 0 ∨ K l) : Respects (Evolves K L N) (add l) := by
  refine evolves_of_valid (stands_add l) fun c hv => ?_
  by_cases h0 : l = 0
  · rw [h0, run_add_zero hv]
    exact change_endClause
  · have hL := hl.resolve_left h0
    cases ht : c.takes l with
    | true =>
      rw [run_add_of_takes hv ht]
      exact change_pushLit hL
    | false =>
      obtain ⟨e, -, -, hrun⟩ := run_add_stopped hv h0 ht
      rw [hrun, stopAdd]
      split
      · exact (change_transition.trans (change_original _ (.inl rfl))).trans (change_initVars (.inl rfl) _)
      · exact .refl (.inl hv)

theorem evolves_constrain {l : ℤ} (hl : l = 0 ∨ L l) : Respects (Evolves K L N) (constrain l) := by
  refine evolves_of_valid (stands_constrain l) fun c hv => ?_
  by_cases h0 : l = 0
  · rw [h0, run_constrain_zero hv]
    exact change_endConstraint
  · have hL := hl.resolve_left h0
    cases ht : c.accepts l with
    | true =>
      obtain ⟨hu, hm⟩ := Bool.and_eq_true_iff.mp ht
      rw [run_constrain_taken hv hu (by simpa using hm)]
      exact change_pushConstraint hL
    | false =>
      obtain ⟨e, -, -, hrun⟩ := run_constrain_stopped hv h0 ht
      rw [hrun, stopConstrain]
      split
      · exact (change_transition.trans (change_openConstraint (.inl rfl))).trans (change_initVars (.inl rfl) _)
      · exact .refl (.inl hv)

theorem evolves_assume {l : ℤ} (hl : L l) : Respects (Evolves K L N) (assume l) := by
  refine evolves_of_valid (stands_assume l) fun c hv => ?_
  cases ht : c.accepts l with
  | true =>
    obtain ⟨hu, hm⟩ := Bool.and_eq_true_iff.mp ht
    rw [run_assume_taken hv hu (by simpa using hm)]
    exact change_pushAssumption hl
  | false =>
    obtain ⟨e, -, -, hrun⟩ := run_assume_stopped hv ht
    rw [hrun, stopAssume]
    split
    · exact change_pushAssumption hl
    · exact .refl (.inl hv)

theorem evolves_declareMoreVariables (n : ℕ) :
    Respects (Evolves K L N) (declareMoreVariables n) := by
  refine evolves_of_valid (stands_declareMoreVariables n) fun c hv => ?_
  rw [run_declareMoreVariables hv]
  exact change_transition.trans (change_initVars (.inl rfl) _)

/-- A search whose check fails has been recorded like any other. -/
theorem change_callExternalSolve {c : Cadical} (pre : Bool) (ask : Oracle) :
    Change K L N c ((callExternalSolve pre ask).run c).2 := by
  cases hcheck : searchCheck pre ask c with
  | ok u =>
    rw [run_callExternalSolve hcheck]
    exact change_afterSearch _ _
  | error e =>
    rw [run_callExternalSolve_failed hcheck]
    exact change_recordedSearch hcheck

theorem evolves_solve (ask : Oracle) : Respects (Evolves K L N) (solve ask) := by
  refine evolves_of_valid (stands_solve ask) fun c hv => ?_
  by_cases ha : c.state = .adding
  · rw [solve, run_bind, run_requireReadyState_adding ha]
    exact .refl (.inl hv)
  · rw [run_solve_ready hv ha]
    exact change_callExternalSolve false ask

theorem evolves_simplify (ask : Oracle) : Respects (Evolves K L N) (simplify ask) := by
  refine evolves_of_valid (stands_simplify ask) fun c hv => ?_
  by_cases ha : c.state = .adding
  · rw [simplify, run_bind, run_requireReadyState_adding ha]
    exact .refl (.inl hv)
  · rw [run_simplify_ready hv ha]
    have h : Change K L N c c.limitRounds :=
      .of_same (.inl hv) le_rfl rfl rfl rfl rfl rfl (fun _ _ => rfl) rfl rfl
    exact h.trans (change_callExternalSolve true ask)

theorem evolves_set {name : String} (hN : N name) (value : ℤ) :
    Respects (Evolves K L N) (set name value) := by
  refine evolves_of_valid (stands_set name value) fun c hv => ?_
  have hset : Change K L N c (setOpt name value c) := by
    rw [setOpt]
    split
    · exact .refl (.inl hv)
    · refine .of_same (.inl hv) le_rfl rfl rfl rfl rfl rfl (fun n hn => ?_) rfl rfl
      have hne : n ≠ name := fun h => hn (by rw [h]; exact hN)
      exact Function.update_of_ne hne _ _
  rw [set, run_bind, run_requireValidState hv, andThen_ok, run_bind, run_read, andThen_ok, run_bind]
  cases !reportingOptions.contains name with
  | false => exact hset
  | true =>
    cases c.state == .configuring with
    | false => exact .refl (.inl hv)
    | true => exact hset

theorem evolves_limit (name : String) (value : ℤ) : Respects (Evolves K L N) (limit name value) := by
  refine evolves_of_valid (stands_limit name value) fun c hv => ?_
  rw [limit, run_bind, run_requireValidState hv, andThen_ok, run_modify]
  split
  · exact .of_same (.inl hv) le_rfl rfl rfl rfl rfl rfl (fun _ _ => rfl) rfl rfl
  · exact .refl (.inl hv)

theorem evolves_traceProof (file : ℕ) (name : String) :
    Respects (Evolves K L N) (traceProof file name) := by
  refine evolves_of_valid (stands_traceProof file name) fun c hv => ?_
  rw [traceProof, run_bind, run_requireValidState hv, andThen_ok, run_bind, run_read, andThen_ok, run_bind]
  cases c.state == .configuring with
  | false => exact .refl (.inl hv)
  | true => exact .of_same (.inl hv) le_rfl rfl rfl rfl rfl rfl (fun _ _ => rfl) rfl rfl

theorem evolves_closeProofTrace : Respects (Evolves K L N) closeProofTrace := by
  refine evolves_of_valid stands_closeProofTrace fun c hv => ?_
  rw [closeProofTrace, run_bind, run_requireValidState hv, andThen_ok, run_bind, run_read, andThen_ok, run_bind]
  cases !c.fileTracers.isEmpty with
  | false => exact .refl (.inl hv)
  | true =>
    rw [run_require_true, andThen_ok, run_bind]
    cases c.fileTracers.getLast?.all fun t => !t.closed with
    | false => exact .refl (.inl hv)
    | true => exact .of_same (.inl hv) le_rfl rfl rfl rfl rfl rfl (fun _ _ => rfl) rfl rfl

end Api

end Cadical
end Zusat
