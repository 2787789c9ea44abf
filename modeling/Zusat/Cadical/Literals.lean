import Zusat.Cadical.Effects
import Zusat.Foundations.Cnf

/-! # Feeding a vector of literals to CaDiCaL

`zusat.c` hands over a clause, a constraint or the assumptions literal by literal. What is checked
of a literal does not change while its vector is fed (`takes_pushLit` and its siblings), so a loop
either takes the whole vector, with an effect that has a closed form, or stops at the first literal
CaDiCaL would not have taken from the start. -/

namespace Zusat
open Foundations Foundations.Prog
set_option autoImplicit false

namespace Cadical

/-- `add` takes the literal. -/
def takes (c : Cadical) (l : ℤ) : Bool := c.addable l && !c.molten l

/-- `constrain` and `assume` take the literal. -/
def accepts (c : Cadical) (l : ℤ) : Bool := c.usable l && !c.molten l

/-! ## The checks while a vector is fed -/

/-- Nothing the checks of a literal read has changed, except perhaps the number of variables. -/
structure SameChecks (c c' : Cadical) : Prop where
  opts : c'.opts = c.opts
  ervars : c'.ervars = c.ervars
  moltentab : c'.moltentab = c.moltentab

theorem SameChecks.refl (c : Cadical) : SameChecks c c := ⟨rfl, rfl, rfl⟩

theorem SameChecks.usable {c c' : Cadical} (h : SameChecks c c') (l : ℤ) :
    c'.usable l = c.usable l := by
  rw [Cadical.usable, Cadical.usable, isValidInput_eq, isValidInput_eq, h.ervars]

theorem SameChecks.molten {c c' : Cadical} (h : SameChecks c c') (l : ℤ) :
    c'.molten l = c.molten l := by
  rw [Cadical.molten, Cadical.molten, h.opts, h.moltentab]

theorem SameChecks.accepts {c c' : Cadical} (h : SameChecks c c') (l : ℤ) :
    c'.accepts l = c.accepts l := by
  rw [Cadical.accepts, Cadical.accepts, h.usable, h.molten]

theorem SameChecks.needsDeclared {c c' : Cadical} (h : SameChecks c c') :
    c'.needsDeclared = c.needsDeclared := by
  rw [Cadical.needsDeclared, Cadical.needsDeclared, h.opts]

theorem SameChecks.addable {c c' : Cadical} (h : SameChecks c c')
    (hd : c.needsDeclared = true → c'.maxVar = c.maxVar) (l : ℤ) :
    c'.addable l = c.addable l := by
  rw [Cadical.addable, Cadical.addable, h.usable, h.needsDeclared]
  cases hn : c.needsDeclared with
  | false => rfl
  | true => rw [hd hn]

theorem sameChecks_pushLit (c : Cadical) (l : ℤ) : SameChecks c (c.pushLit l) := ⟨rfl, rfl, rfl⟩

theorem addable_le {c : Cadical} {l : ℤ} (ha : c.addable l = true)
    (hd : c.needsDeclared = true) : l.natAbs ≤ c.maxVar := by
  have h := (Bool.and_eq_true_iff.mp ha).1
  rw [hd, Bool.not_true, Bool.false_or] at h
  exact of_decide_eq_true h

theorem addable_pushLit {c : Cadical} {l : ℤ} (ha : c.addable l = true) (l' : ℤ) :
    (c.pushLit l).addable l' = c.addable l' :=
  (sameChecks_pushLit c l).addable (fun hd => max_eq_left (addable_le ha hd)) l'

theorem takes_pushLit {c : Cadical} {l : ℤ} (ht : c.takes l = true) (l' : ℤ) :
    (c.pushLit l).takes l' = c.takes l' := by
  rw [takes, takes, addable_pushLit (Bool.and_eq_true_iff.mp ht).1,
    (sameChecks_pushLit c l).molten]

/-! ## Clauses -/

/-- The solver in the middle of a clause. -/
def beginClause (c : Cadical) (p : List ℤ) : Cadical :=
  { initVars (topVar p) c.transitionToSteadyState with
    clause := c.clause ++ p, original := c.saved p, addingClause := true, state := .adding }

/-- The solver after a whole clause. -/
def takeClause (c : Cadical) (p : List ℤ) : Cadical :=
  { initVars (topVar p) c.transitionToSteadyState with
    clauses := c.clauses ++ [c.clause ++ p], clause := [], original := c.saved (p ++ [0])
    addingClause := false }

theorem pushLit_eq_beginClause (c : Cadical) (l : ℤ) : c.pushLit l = c.beginClause [l] := by
  rw [pushLit, beginClause, topVar_singleton]

theorem beginClause_pushLit (c : Cadical) (l : ℤ) (p : List ℤ) :
    (c.pushLit l).beginClause p = c.beginClause (l :: p) := by
  have hsaved : (c.pushLit l).saved p = c.saved ([l] ++ p) :=
    @saved_append c (c.pushLit l) [l] rfl rfl p
  rw [beginClause, hsaved]
  simp only [beginClause, pushLit, transitionToSteadyState, initVars, max_assoc, List.append_assoc,
    ApiState.ended, List.singleton_append, if_false, Bool.false_eq_true]
  rfl

theorem foldl_pushLit (c : Cadical) (l : ℤ) (p : List ℤ) :
    (l :: p).foldl pushLit c = c.beginClause (l :: p) := by
  induction p generalizing c l with
  | nil => exact pushLit_eq_beginClause c l
  | cons l' p ih =>
    rw [List.foldl_cons, ih (c.pushLit l) l', beginClause_pushLit]

theorem endClause_foldl (c : Cadical) (p : List ℤ) :
    (p.foldl pushLit c).endClause = c.takeClause p := by
  cases p with
  | nil =>
    simp only [List.foldl_nil, endClause, takeClause, initVars, topVar, List.foldr_nil,
      Nat.max_zero, List.append_nil, List.nil_append]
  | cons l p =>
    have hsaved : (c.beginClause (l :: p)).saved [0] = c.saved ((l :: p) ++ [0]) :=
      @saved_append c (c.beginClause (l :: p)) (l :: p) rfl rfl [0]
    rw [foldl_pushLit, endClause, hsaved]
    rfl

theorem pushLit_valid (c : Cadical) (l : ℤ) : (c.pushLit l).state.valid = true := rfl

theorem valid_foldl_pushLit {c : Cadical} (hv : c.state.valid = true) (p : List ℤ) :
    (p.foldl pushLit c).state.valid = true := by
  cases p with
  | nil => exact hv
  | cons l p => rw [foldl_pushLit]; rfl

/-- The solver `add` leaves when it does not take the literal. -/
def stopAdd (c : Cadical) (l : ℤ) : Cadical :=
  if c.addable l then initVars l.natAbs (c.beforeAdd l) else c

theorem foldl_pushLit_clauses (c : Cadical) (q : List ℤ) :
    (q.foldl pushLit c).clauses = c.clauses ∧
      (q.foldl pushLit c).clause = c.clause ++ q := by
  cases q with
  | nil => exact ⟨rfl, (List.append_nil _).symm⟩
  | cons l q => rw [foldl_pushLit]; exact ⟨rfl, rfl⟩

theorem stopAdd_clauses (c : Cadical) (l : ℤ) :
    (c.stopAdd l).clauses = c.clauses ∧ (c.stopAdd l).clause = c.clause := by
  rw [stopAdd]
  split <;> exact ⟨rfl, rfl⟩

theorem run_add_stopped {c : Cadical} (hv : c.state.valid = true) {l : ℤ} (hl : l ≠ 0)
    (ht : c.takes l = false) : ∃ e : RError, e.fromCadical = true ∧
      e.isContract = !c.addable l ∧ (add l).run c = (.error e, c.stopAdd l) := by
  cases ha : c.addable l with
  | false =>
    obtain ⟨t, hr⟩ := run_add_refused hv hl ha
    exact ⟨_, rfl, rfl, by rw [hr, stopAdd, ha]; rfl⟩
  | true =>
    have hm : c.molten l = true := by
      rw [takes, ha, Bool.true_and] at ht
      simpa using ht
    obtain ⟨t, hr⟩ := run_add_molten hv ha hm
    exact ⟨_, rfl, rfl, by rw [hr, stopAdd, ha]; rfl⟩

theorem run_add_of_takes {c : Cadical} (hv : c.state.valid = true) {l : ℤ}
    (ht : c.takes l = true) : (add l).run c = (.ok (), c.pushLit l) := by
  obtain ⟨ha, hm⟩ := Bool.and_eq_true_iff.mp ht
  exact run_add_taken hv ha (by simpa using hm)

/-- A clause without its terminating zero: taken whole, or stopped at its first literal that `add`
does not take. -/
theorem run_addLits {c : Cadical} (hv : c.state.valid = true) {p : List ℤ}
    (hp : ∀ l ∈ p, l ≠ 0) :
    ((∀ l ∈ p, c.takes l = true) ∧ (each add p).run c = (.ok (), p.foldl pushLit c)) ∨
      ∃ q l r e, p = q ++ l :: r ∧ (∀ x ∈ q, c.takes x = true) ∧ c.takes l = false ∧
        RError.fromCadical e = true ∧ e.isContract = !c.addable l ∧
        (each add p).run c = (.error e, (q.foldl pushLit c).stopAdd l) := by
  let I : Cadical → Prop := fun c' =>
    c'.state.valid = true ∧ ∀ l, c'.takes l = c.takes l ∧ c'.addable l = c.addable l
  have htake : ∀ c' l, I c' → c.takes l = true →
      (add l).run c' = (.ok (), c'.pushLit l) ∧ I (c'.pushLit l) := by
    intro c' l hI hl
    have ht : c'.takes l = true := (hI.2 l).1.trans hl
    refine ⟨run_add_of_takes hI.1 ht, pushLit_valid c' l, fun l' => ⟨?_, ?_⟩⟩
    · rw [takes_pushLit ht, (hI.2 l').1]
    · rw [addable_pushLit (Bool.and_eq_true_iff.mp ht).1, (hI.2 l').2]
  rcases run_each_cases htake p (s := c) ⟨hv, fun _ => ⟨rfl, rfl⟩⟩ with
    h | ⟨q, l, r, rfl, hq, hl, hI, hr⟩
  · exact .inl h
  · obtain ⟨e, he, hc, hrun⟩ := run_add_stopped hI.1 (hp l (by simp)) ((hI.2 l).1.trans hl)
    exact .inr ⟨q, l, r, e, rfl, hq, hl, he, by rw [hc, (hI.2 l).2], by rw [hr, hrun]; rfl⟩

/-! ## Constraints -/

/-- The solver in the middle of a constraint. -/
def beginConstraint (c : Cadical) (p : List ℤ) : Cadical :=
  { initVars (topVar p) c.transitionToSteadyState with
    constraint := c.transitionToSteadyState.openConstraint.constraint ++ p
    addingConstraint := true, state := .adding }

/-- The solver after a whole constraint. -/
def takeConstraint (c : Cadical) (p : List ℤ) : Cadical :=
  { initVars (topVar p) c.transitionToSteadyState with
    constraint := c.transitionToSteadyState.openConstraint.constraint ++ (p ++ [0])
    addingConstraint := false }

/-- The solver `constrain` leaves when it does not take the literal. -/
def stopConstrain (c : Cadical) (l : ℤ) : Cadical :=
  if c.usable l then initVars l.natAbs c.transitionToSteadyState.openConstraint else c

theorem getLast?_ne_zero {xs : List ℤ} {l : ℤ} (hl : l ≠ 0) : (xs ++ [l]).getLast? ≠ some 0 := by
  rw [List.getLast?_append, List.getLast?_singleton]
  simpa using hl

theorem beginConstraint_pushConstraint (c : Cadical) {l : ℤ} (hl : l ≠ 0) (p : List ℤ) :
    (c.pushConstraint l).beginConstraint p = c.beginConstraint (l :: p) := by
  have hopen : (c.pushConstraint l).transitionToSteadyState.openConstraint.constraint =
      c.transitionToSteadyState.openConstraint.constraint ++ [l] :=
    if_neg (getLast?_ne_zero hl)
  rw [beginConstraint, beginConstraint, hopen]
  simp only [pushConstraint, transitionToSteadyState, initVars, max_assoc, List.append_assoc,
    ApiState.ended, List.singleton_append, openConstraint, if_false, Bool.false_eq_true]
  rfl

theorem foldl_pushConstraint (c : Cadical) {l : ℤ} {p : List ℤ} (hp : ∀ x ∈ l :: p, x ≠ 0) :
    (l :: p).foldl pushConstraint c = c.beginConstraint (l :: p) := by
  induction p generalizing c l with
  | nil =>
    rw [List.foldl_cons, List.foldl_nil, pushConstraint, beginConstraint, topVar_singleton]
    rfl
  | cons l' p ih =>
    rw [List.foldl_cons, ih (c.pushConstraint l) (fun x hx => hp x (List.mem_cons_of_mem l hx)),
      beginConstraint_pushConstraint c (hp l (List.mem_cons_self ..))]

theorem endConstraint_foldl (c : Cadical) {p : List ℤ} (hp : ∀ x ∈ p, x ≠ 0) :
    (p.foldl pushConstraint c).endConstraint = c.takeConstraint p := by
  cases p with
  | nil =>
    simp only [List.foldl_nil, endConstraint, takeConstraint, initVars, topVar, List.foldr_nil,
      Nat.max_zero, List.nil_append]
  | cons l p =>
    have hlast : (c.transitionToSteadyState.openConstraint.constraint ++ (l :: p)).getLast? ≠
        some 0 := by
      rw [List.getLast?_append, List.getLast?_eq_some_getLast (List.cons_ne_nil l p)]
      simpa using hp _ (List.getLast_mem (List.cons_ne_nil l p))
    have hopen : (c.beginConstraint (l :: p)).transitionToSteadyState.openConstraint.constraint =
        c.transitionToSteadyState.openConstraint.constraint ++ (l :: p) := if_neg hlast
    rw [foldl_pushConstraint c hp, endConstraint, hopen, takeConstraint, List.append_assoc]
    rfl

theorem valid_foldl_pushConstraint {c : Cadical} (hv : c.state.valid = true) {p : List ℤ}
    (hp : ∀ x ∈ p, x ≠ 0) : (p.foldl pushConstraint c).state.valid = true := by
  cases p with
  | nil => exact hv
  | cons l p => rw [foldl_pushConstraint c hp]; rfl

theorem run_constrain_stopped {c : Cadical} (hv : c.state.valid = true) {l : ℤ} (hl : l ≠ 0)
    (ht : c.accepts l = false) : ∃ e : RError, e.fromCadical = true ∧
      e.isContract = !c.usable l ∧ (constrain l).run c = (.error e, c.stopConstrain l) := by
  cases hu : c.usable l with
  | false =>
    obtain ⟨t, hr⟩ := run_constrain_refused hv hl hu
    exact ⟨_, rfl, rfl, by rw [hr, stopConstrain, hu]; rfl⟩
  | true =>
    have hm : c.molten l = true := by
      rw [accepts, hu, Bool.true_and] at ht
      simpa using ht
    obtain ⟨t, hr⟩ := run_constrain_molten hv hu hm
    exact ⟨_, rfl, rfl, by rw [hr, stopConstrain, hu]; rfl⟩

/-- A constraint without its terminating zero. -/
theorem run_constrainLits {c : Cadical} (hv : c.state.valid = true) {p : List ℤ}
    (hp : ∀ l ∈ p, l ≠ 0) :
    ((∀ l ∈ p, c.accepts l = true) ∧
        (each constrain p).run c = (.ok (), p.foldl pushConstraint c)) ∨
      ∃ q l r e, p = q ++ l :: r ∧ (∀ x ∈ q, c.accepts x = true) ∧ c.accepts l = false ∧
        RError.fromCadical e = true ∧ e.isContract = !c.usable l ∧
        (each constrain p).run c = (.error e, (q.foldl pushConstraint c).stopConstrain l) := by
  let I : Cadical → Prop := fun c' => c'.state.valid = true ∧ SameChecks c c'
  have htake : ∀ c' l, I c' → c.accepts l = true →
      (constrain l).run c' = (.ok (), c'.pushConstraint l) ∧ I (c'.pushConstraint l) := by
    intro c' l hI hl
    obtain ⟨hu, hm⟩ := Bool.and_eq_true_iff.mp ((hI.2.accepts l).trans hl)
    exact ⟨run_constrain_taken hI.1 hu (by simpa using hm), rfl,
      ⟨hI.2.opts, hI.2.ervars, hI.2.moltentab⟩⟩
  rcases run_each_cases htake p (s := c) ⟨hv, SameChecks.refl c⟩ with
    h | ⟨q, l, r, rfl, hq, hl, hI, hr⟩
  · exact .inl h
  · obtain ⟨e, he, hc, hrun⟩ :=
      run_constrain_stopped hI.1 (hp l (by simp)) ((hI.2.accepts l).trans hl)
    exact .inr ⟨q, l, r, e, rfl, hq, hl, he, by rw [hc, hI.2.usable], by rw [hr, hrun]; rfl⟩

/-! ## Assumptions -/

/-- The solver after a non-empty vector of assumptions. -/
def takeAssumptions (c : Cadical) (p : List ℤ) : Cadical :=
  { initVars (topVar p) c.transitionToSteadyState with
    assumptions := c.transitionToSteadyState.assumptions ++ p }

/-- The solver `assume` leaves when it does not take the literal. -/
def stopAssume (c : Cadical) (l : ℤ) : Cadical := if c.usable l then c.pushAssumption l else c

theorem takeAssumptions_pushAssumption (c : Cadical) (l : ℤ) (p : List ℤ) :
    (c.pushAssumption l).takeAssumptions p = c.takeAssumptions (l :: p) := by
  simp only [takeAssumptions, pushAssumption, recordAssumption, transitionToSteadyState, initVars,
    max_assoc, List.append_assoc, ApiState.ended, List.singleton_append, if_false,
    Bool.false_eq_true]
  rfl

theorem foldl_pushAssumption (c : Cadical) (l : ℤ) (p : List ℤ) :
    (l :: p).foldl pushAssumption c = c.takeAssumptions (l :: p) := by
  induction p generalizing c l with
  | nil =>
    rw [List.foldl_cons, List.foldl_nil, pushAssumption, takeAssumptions, topVar_singleton]
    rfl
  | cons l' p ih =>
    rw [List.foldl_cons, ih (c.pushAssumption l) l', takeAssumptions_pushAssumption]

theorem valid_foldl_pushAssumption {c : Cadical} (hv : c.state.valid = true) (p : List ℤ) :
    (p.foldl pushAssumption c).state.valid = true := by
  cases p with
  | nil => exact hv
  | cons l p => rw [foldl_pushAssumption]; rfl

theorem run_assume_stopped {c : Cadical} (hv : c.state.valid = true) {l : ℤ}
    (ht : c.accepts l = false) : ∃ e : RError, e.fromCadical = true ∧
      e.isContract = !c.usable l ∧ (assume l).run c = (.error e, c.stopAssume l) := by
  cases hu : c.usable l with
  | false =>
    obtain ⟨t, hr⟩ := run_assume_refused hv hu
    exact ⟨_, rfl, rfl, by rw [hr, stopAssume, hu]; rfl⟩
  | true =>
    have hm : c.molten l = true := by
      rw [accepts, hu, Bool.true_and] at ht
      simpa using ht
    obtain ⟨t, hr⟩ := run_assume_molten hv hu hm
    exact ⟨_, rfl, rfl, by rw [hr, stopAssume, hu]; rfl⟩

/-- A vector of assumptions. -/
theorem run_assumeLits {c : Cadical} (hv : c.state.valid = true) (p : List ℤ) :
    ((∀ l ∈ p, c.accepts l = true) ∧
        (each assume p).run c = (.ok (), p.foldl pushAssumption c)) ∨
      ∃ q l r e, p = q ++ l :: r ∧ (∀ x ∈ q, c.accepts x = true) ∧ c.accepts l = false ∧
        RError.fromCadical e = true ∧ e.isContract = !c.usable l ∧
        (each assume p).run c = (.error e, (q.foldl pushAssumption c).stopAssume l) := by
  let I : Cadical → Prop := fun c' => c'.state.valid = true ∧ SameChecks c c'
  have htake : ∀ c' l, I c' → c.accepts l = true →
      (assume l).run c' = (.ok (), c'.pushAssumption l) ∧ I (c'.pushAssumption l) := by
    intro c' l hI hl
    obtain ⟨hu, hm⟩ := Bool.and_eq_true_iff.mp ((hI.2.accepts l).trans hl)
    exact ⟨run_assume_taken hI.1 hu (by simpa using hm), rfl,
      ⟨hI.2.opts, hI.2.ervars, hI.2.moltentab⟩⟩
  rcases run_each_cases htake p (s := c) ⟨hv, SameChecks.refl c⟩ with
    h | ⟨q, l, r, rfl, hq, hl, hI, hr⟩
  · exact .inl h
  · obtain ⟨e, he, hc, hrun⟩ := run_assume_stopped hI.1 ((hI.2.accepts l).trans hl)
    exact .inr ⟨q, l, r, e, rfl, hq, hl, he, by rw [hc, hI.2.usable], by rw [hr, hrun]; rfl⟩

end Cadical
end Zusat
