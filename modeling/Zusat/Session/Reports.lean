import Mathlib.Data.List.Induction
import Zusat.Foundations.Cnf
import Zusat.Model.Enumerate

/-! # Reading the report of an enumeration

A report is three columns and some attributes. Here the assignments are read back from the rows, which is
what a caller of `sat_solutions` sees of them. -/

namespace Zusat
open Foundations Foundations.Prog
set_option autoImplicit false

/-- The assignment a search found, on the variables known when it started. -/
def Search.model (q : Search) : Assignment := fun v => decide (v ≤ q.maxVar) && q.answer.vals v

/-- The models found by searches that nobody interrupted. -/
def modelsFound (qs : List Search) : List Assignment :=
  (qs.filter fun q => q.answer.res = .sat ∧ q.answer.interrupted = false).map Search.model

namespace Session

/-- The values of the variables `vs`. -/
def project (vs : List ℤ) (α : Assignment) : List Bool := vs.map fun v => α v.natAbs

/-! ## Rows -/

/-- The rows of a report. -/
def Solutions.rows (out : Solutions) : List (ℕ × ℤ × Bool) :=
  out.solutionCol.zip (out.variableCol.zip out.valueCol)

/-- The rows that list these assignments of `vs`, numbered from one. -/
def rowsOf (vs : List ℤ) (found : List (List Bool)) : List (ℕ × ℤ × Bool) :=
  found.zipIdx.flatMap fun x => (vs.zip x.1).map fun p => (x.2 + 1, p)

theorem zip_replicate {α β : Type} (a : α) (xs : List β) :
    (List.replicate xs.length a).zip xs = xs.map fun x => (a, x) := by
  induction xs with
  | nil => rfl
  | cons x xs ih => rw [List.length_cons, List.replicate_succ, List.zip_cons_cons, ih]; rfl

section Report
variable {found : List (List Bool)} {vs : List ℤ} {status : SolveRes} {stopped : Stopped}

theorem columns_newSolutions (hlen : ∀ b ∈ found, b.length = vs.length) :
    (newSolutions found vs status stopped).variableCol.length =
        (newSolutions found vs status stopped).solutionCol.length ∧
      (newSolutions found vs status stopped).valueCol.length =
        (newSolutions found vs status stopped).solutionCol.length := by
  have hsum : (found.map List.length).sum = found.length * vs.length := by
    induction found with
    | nil => simp
    | cons b found ih =>
      rw [List.map_cons, List.sum_cons, hlen b (List.mem_cons_self ..),
        ih fun c hc => hlen c (List.mem_cons_of_mem b hc), List.length_cons, Nat.succ_mul,
        Nat.add_comm]
  constructor
  · simp [newSolutions, List.length_flatMap, List.map_const']
  · simp [newSolutions, List.length_flatMap, List.length_flatten, List.map_const', hsum]

theorem rows_newSolutions (hlen : ∀ b ∈ found, b.length = vs.length) :
    (newSolutions found vs status stopped).rows = rowsOf vs found := by
  induction found using List.reverseRecOn with
  | nil => rfl
  | append_singleton found b ih =>
    have hfound : ∀ c ∈ found, c.length = vs.length := fun c hc =>
      hlen c (List.mem_append_left _ hc)
    have hb : b.length = vs.length := hlen b (List.mem_append_right _ (List.mem_singleton.mpr rfl))
    obtain ⟨h1, h2⟩ := @columns_newSolutions found vs status stopped hfound
    have ih := ih hfound
    have hlast : (List.replicate vs.length (found.length + 1)).zip (vs.zip b) =
        (vs.zip b).map fun p => (found.length + 1, p) := by
      have hzip : (vs.zip b).length = vs.length := by rw [List.length_zip, hb, min_self]
      rw [← hzip, zip_replicate]
    simp only [Solutions.rows, newSolutions] at h1 h2 ih ⊢
    rw [List.length_append, List.length_singleton, List.range_succ, List.flatMap_append,
      List.replicate_succ', List.flatten_append, List.flatten_append, List.zip_append (h1.trans h2.symm),
      List.zip_append (by rw [List.length_zip, h1, h2, min_self]), ih, rowsOf, rowsOf,
      List.zipIdx_append, List.flatMap_append]
    simp [hlast]

end Report

/-! ## Assignments -/

/-- The assignments of a report, one for each number in the column `solution`. -/
def Solutions.assignments (out : Solutions) : List (List (ℤ × Bool)) :=
  (List.range out.nSolutions).map fun i =>
    (out.rows.filter fun row => row.1 = i + 1).map fun row => row.2

/-- The variables `vs` with their values. -/
def valuation (vs : List ℤ) (α : Assignment) : List (ℤ × Bool) := vs.map fun v => (v, α v.natAbs)

theorem zip_project (vs : List ℤ) (α : Assignment) : vs.zip (project vs α) = valuation vs α := by
  rw [project, List.zip_map_right, valuation]
  induction vs with
  | nil => rfl
  | cons v vs ih => rw [List.zip_cons_cons, List.map_cons, List.map_cons, ih]; rfl

theorem filter_rows (vs : List ℤ) (found : List (List Bool)) (k j : ℕ) :
    (((found.zipIdx k).flatMap fun x => (vs.zip x.1).map fun p => (x.2 + 1, p)).filter
        fun row => row.1 = j + 1).map (fun row => row.2) =
      if k ≤ j then vs.zip (found[j - k]?.getD []) else [] := by
  induction found generalizing k with
  | nil => simp
  | cons b found ih =>
    rw [List.zipIdx_cons, List.flatMap_cons, List.filter_append, List.map_append, ih (k + 1)]
    have hrow : ∀ row ∈ (vs.zip b).map fun p => (k + 1, p), row.1 = k + 1 := by
      intro row hrow
      obtain ⟨p, -, rfl⟩ := List.mem_map.mp hrow
      rfl
    by_cases hj : k = j
    · subst hj
      rw [List.filter_eq_self.mpr fun row hr => decide_eq_true (hrow row hr), List.map_map, if_neg (by omega), if_pos le_rfl]
      simp [Function.comp_def]
    · rw [List.filter_eq_nil_iff.mpr fun row hr => by rw [hrow row hr]; simp [hj]]
      by_cases hlt : k ≤ j
      · rw [if_pos hlt, if_pos (by omega)]
        obtain ⟨i, rfl⟩ : ∃ i, j = k + 1 + i := ⟨j - (k + 1), by omega⟩
        have hi : k + 1 + i - k = i + 1 := by omega
        rw [hi, List.getElem?_cons_succ, Nat.add_sub_cancel_left]
        rfl
      · rw [if_neg hlt, if_neg (by omega)]
        rfl

theorem assignments_newSolutions {found : List (List Bool)} {vs : List ℤ} {status : SolveRes}
    {stopped : Stopped} (hlen : ∀ b ∈ found, b.length = vs.length) :
    (newSolutions found vs status stopped).assignments = found.map (vs.zip ·) := by
  rw [Solutions.assignments, rows_newSolutions hlen]
  refine List.ext_getElem (by simp [newSolutions]) fun i hi hi' => ?_
  rw [List.length_map] at hi'
  rw [List.getElem_map, List.getElem_map, List.getElem_range, rowsOf, filter_rows,
    if_pos (Nat.zero_le _), Nat.sub_zero, List.getElem?_eq_getElem hi', Option.getD_some]

/-- The clause that rules out an assignment of a report. -/
def excluding (b : List (ℤ × Bool)) : List ℤ := b.map fun p => if p.2 then -p.1 else p.1

theorem excluding_zip (vs : List ℤ) (value : List Bool) :
    excluding (vs.zip value) = blockingClause vs value := by
  rw [excluding, List.map_zip_eq_zipWith]
  rfl

end Session
end Zusat
