import Zusat.Handle.Effects

/-! # Adding a list of clauses

`add_clauses` calls `zusat_add_clause` once a clause. Either every literal of every clause is taken, or
the loop stops at the first literal that is not, with the clauses before it added for good and the
literals before it begun. -/

namespace Zusat
open Foundations Foundations.Prog
set_option autoImplicit false

namespace Cadical

theorem topVar_le_of_addable {c : Cadical} {p : List ℤ} (hp : ∀ l ∈ p, c.addable l = true)
    (hd : c.needsDeclared = true) : topVar p ≤ c.maxVar :=
  topVar_le fun l hl => addable_le (hp l hl) hd

theorem sameChecks_takeClause (c : Cadical) (p : List ℤ) : SameChecks c (c.takeClause p) :=
  ⟨rfl, rfl, rfl⟩

theorem addable_takeClause {c : Cadical} {p : List ℤ} (hp : ∀ l ∈ p, c.addable l = true) (l : ℤ) :
    (c.takeClause p).addable l = c.addable l :=
  (sameChecks_takeClause c p).addable (fun hd => max_eq_left (topVar_le_of_addable hp hd)) l

theorem takes_takeClause {c : Cadical} {p : List ℤ} (hp : ∀ l ∈ p, c.takes l = true) (l : ℤ) :
    (c.takeClause p).takes l = c.takes l := by
  rw [takes, takes, addable_takeClause fun l hl => (Bool.and_eq_true_iff.mp (hp l hl)).1,
    (sameChecks_takeClause c p).molten]

theorem takeClause_maxVar (c : Cadical) (p : List ℤ) :
    (c.takeClause p).maxVar = max c.maxVar (topVar p) := rfl

theorem foldl_takeClause_maxVar (c : Cadical) (cls : List (List ℤ)) :
    (cls.foldl takeClause c).maxVar = max c.maxVar (topVar cls.flatten) := by
  induction cls generalizing c with
  | nil => exact (Nat.max_zero _).symm
  | cons cl cls ih =>
    rw [List.foldl_cons, ih, takeClause_maxVar, List.flatten_cons, topVar_append, max_assoc]

theorem foldl_takeClause_clause {c : Cadical} (hc : c.clause = []) (cls : List (List ℤ)) :
    (cls.foldl takeClause c).clause = [] ∧
      (cls.foldl takeClause c).clauses = c.clauses ++ cls := by
  induction cls generalizing c with
  | nil => exact ⟨hc, (List.append_nil _).symm⟩
  | cons cl cls ih =>
    obtain ⟨h1, h2⟩ := ih (c := c.takeClause cl) rfl
    refine ⟨h1, ?_⟩
    rw [List.foldl_cons, h2]
    change c.clauses ++ [c.clause ++ cl] ++ cls = _
    rw [hc, List.nil_append, List.append_assoc, List.singleton_append]

theorem foldl_takeClause_length (c : Cadical) (cls : List (List ℤ)) :
    (cls.foldl takeClause c).clauses.length = c.clauses.length + cls.length := by
  induction cls generalizing c with
  | nil => rfl
  | cons cl cls ih =>
    rw [List.foldl_cons, ih]
    change (c.clauses ++ [_]).length + _ = _
    rw [List.length_append, List.length_singleton, List.length_cons]
    omega

end Cadical

namespace Handle

/-- The handle after one more clause. -/
def addedTo (h : Handle) (cl : List ℤ) : Handle :=
  (invalidate h).withSolver (h.solver.takeClause cl)

theorem foldl_addedTo_solver (h : Handle) (cls : List (List ℤ)) :
    (cls.foldl addedTo h).solver = cls.foldl Cadical.takeClause h.solver := by
  induction cls generalizing h with
  | nil => rfl
  | cons cl cls ih => exact ih (addedTo h cl)

theorem run_addAll {h : Handle} (hv : h.solver.state.valid = true) {cls : List (List ℤ)}
    (hcls : ∀ cl ∈ cls, ∀ l ∈ cl, ValidLit l) :
    ((∀ cl ∈ cls, ∀ l ∈ cl, h.solver.takes l = true) ∧
        (each (fun cl => zusatAddClause (.int cl)) cls).run h = (.ok (), cls.foldl addedTo h)) ∨
      ∃ done q l r rest e, cls = done ++ (q ++ l :: r) :: rest ∧
        (∀ cl ∈ done, ∀ x ∈ cl, h.solver.takes x = true) ∧ (∀ x ∈ q, h.solver.takes x = true) ∧
        h.solver.takes l = false ∧ RError.fromCadical e = true ∧
        e.isContract = !h.solver.addable l ∧
        (each (fun cl => zusatAddClause (.int cl)) cls).run h =
          (.error e, (invalidate (done.foldl addedTo h)).withSolver
            ((q.foldl Cadical.pushLit (done.foldl Cadical.takeClause h.solver)).stopAdd l)) := by
  -- only clauses of the list are fed, so their literals are valid
  let takes : List ℤ → Bool := fun cl => decide (∀ l ∈ cl, ValidLit l) && cl.all h.solver.takes
  let I : Handle → Prop := fun h' => h'.solver.state.valid = true ∧
    ∀ l, h'.solver.takes l = h.solver.takes l ∧ h'.solver.addable l = h.solver.addable l
  have htake : ∀ h' cl, I h' → takes cl = true →
      (zusatAddClause (.int cl)).run h' = (.ok (), addedTo h' cl) ∧ I (addedTo h' cl) := by
    intro h' cl hI hcl
    obtain ⟨hvalid, hall⟩ := Bool.and_eq_true_iff.mp hcl
    have hall' : ∀ l ∈ cl, h'.solver.takes l = true := fun l hl =>
      (hI.2 l).1.trans (List.all_eq_true.mp hall l hl)
    refine ⟨?_, rfl, fun l => ⟨?_, ?_⟩⟩
    · rcases run_zusatAddClause hI.1 (of_decide_eq_true hvalid) with
        ⟨-, hrun⟩ | ⟨q, l, r, e, rfl, -, hl, -⟩
      · exact hrun
      · rw [hall' l (by simp)] at hl
        cases hl
    · exact (Cadical.takes_takeClause hall' l).trans (hI.2 l).1
    · exact (Cadical.addable_takeClause
        (fun x hx => (Bool.and_eq_true_iff.mp (hall' x hx)).1) l).trans (hI.2 l).2
  have htakes : ∀ cl ∈ cls, takes cl = true → ∀ l ∈ cl, h.solver.takes l = true := fun cl _ hcl =>
    List.all_eq_true.mp (Bool.and_eq_true_iff.mp hcl).2
  rcases run_each_cases htake cls (s := h) ⟨hv, fun _ => ⟨rfl, rfl⟩⟩ with
    ⟨hall, hrun⟩ | ⟨done, cl, rest, rfl, hdone, hcl, hI, hrun⟩
  · exact .inl ⟨fun cl hcl => htakes cl hcl (hall cl hcl), hrun⟩
  · have hvalid := hcls cl (by simp)
    rcases run_zusatAddClause hI.1 hvalid with ⟨hall, -⟩ | ⟨q, l, r, e, rfl, hq, hl, he, hc, hr⟩
    · have : takes cl = true := by
        refine Bool.and_eq_true_iff.mpr ⟨decide_eq_true hvalid, List.all_eq_true.mpr fun l hl => ?_⟩
        rw [← (hI.2 l).1]
        exact hall l hl
      rw [this] at hcl
      cases hcl
    · refine .inr ⟨done, q, l, r, rest, e, rfl, fun cl hcl => htakes cl (by simp [hcl]) (hdone cl hcl),
        fun x hx => (hI.2 x).1.symm.trans (hq x hx), (hI.2 l).1.symm.trans hl, he,
        hc.trans (by rw [(hI.2 l).2]), ?_⟩
      rw [hrun, hr, andThen_error, foldl_addedTo_solver]

end Handle
end Zusat
