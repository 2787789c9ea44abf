import Zusat.Model.LratChecker
import Mathlib.Data.List.Basic
import Mathlib.Order.Nat

/-! # Marks, imports and searches of the LRAT checker

The loops over the two arrays of marks in closed form, what a clause leaves behind when it is imported, and
what a search of the table returns. -/

namespace Zusat.LratChecker
open Foundations Foundations.Prog
set_option autoImplicit false

/-- No literal is marked. -/
abbrev clear : ℤ → Bool := fun _ => false

/-! ## Loops over marks -/

@[simp] theorem mem_negated {x : ℤ} {ls : List ℤ} : x ∈ negated ls ↔ -x ∈ ls := by
  rw [negated, List.mem_map]
  constructor
  · rintro ⟨l, hl, rfl⟩
    rwa [Int.neg_neg]
  · exact fun h => ⟨-x, h, Int.neg_neg x⟩

theorem setMarks_apply (m : ℤ → Bool) (ls : List ℤ) (b : Bool) (x : ℤ) :
    setMarks m ls b x = if x ∈ ls then b else m x := by
  unfold setMarks
  induction ls generalizing m with
  | nil => rw [List.foldl_nil, if_neg List.not_mem_nil]
  | cons l ls ih =>
    rw [List.foldl_cons, ih]
    by_cases hx : x ∈ ls
    · rw [if_pos hx, if_pos (List.mem_cons_of_mem l hx)]
    · rw [if_neg hx]
      by_cases hl : x = l
      · rw [hl, Function.update_self, if_pos (List.mem_cons_self ..)]
      · rw [Function.update_of_ne hl, if_neg (by simp [hl, hx])]

theorem setMarks_true {m : ℤ → Bool} {ls : List ℤ} {x : ℤ} :
    setMarks m ls true x = true ↔ x ∈ ls ∨ m x = true := by
  rw [setMarks_apply]
  split <;> simp_all

/-- Clearing every literal that may be marked. -/
theorem setMarks_clear {m : ℤ → Bool} {ls : List ℤ} (h : ∀ x, m x = true → x ∈ ls) :
    setMarks m ls false = clear := by
  funext x
  rw [setMarks_apply]
  split
  · rfl
  · next hx =>
    cases hm : m x with
    | false => rfl
    | true => exact absurd (h x hm) hx

theorem falsify_foldl (ls : List ℤ) (m : ℤ → Bool) (b : Bool) :
    let st := ls.foldl (fun st l => (Function.update st.1 (-l) true, st.2 ||
      Function.update st.1 (-l) true l)) (m, b)
    (∀ x, st.1 x = true ↔ -x ∈ ls ∨ m x = true) ∧
      (st.2 = true ↔ b = true ∨ (∃ l ∈ ls, m l = true) ∨ ∃ l ∈ ls, -l ∈ ls) := by
  induction ls generalizing m b with
  | nil => simp
  | cons l ls ih =>
    obtain ⟨hmarks, htaut⟩ := ih (Function.update m (-l) true) (b || Function.update m (-l) true l)
    have hupdate : ∀ x, Function.update m (-l) true x = true ↔ -x = l ∨ m x = true := by
      intro x
      by_cases hx : x = -l
      · rw [hx, Function.update_self]
        simp
      · rw [Function.update_of_ne hx]
        have hne : -x ≠ l := by omega
        simp [hne]
    refine ⟨fun x => ?_, ?_⟩
    · rw [List.foldl_cons, hmarks, hupdate, List.mem_cons]
      tauto
    · rw [List.foldl_cons, htaut, Bool.or_eq_true, hupdate]
      constructor
      · rintro ((hb | hl | hl) | ⟨x, hx, h⟩ | ⟨x, hx, h⟩)
        · exact .inl hb
        · exact .inr (.inr ⟨l, by simp, by simp [hl]⟩)
        · exact .inr (.inl ⟨l, by simp, hl⟩)
        · rcases (hupdate x).mp h with h | h
          · exact .inr (.inr ⟨x, by simp [hx], by simp [h]⟩)
          · exact .inr (.inl ⟨x, by simp [hx], h⟩)
        · exact .inr (.inr ⟨x, by simp [hx], by simp [h]⟩)
      · rintro (hb | ⟨x, hx, h⟩ | ⟨x, hx, h⟩)
        · exact .inl (.inl hb)
        · rcases List.mem_cons.mp hx with rfl | hx
          · exact .inl (.inr (.inr h))
          · exact .inr (.inl ⟨x, hx, (hupdate x).mpr (.inr h)⟩)
        · rcases List.mem_cons.mp hx with rfl | hx
          · rcases List.mem_cons.mp h with h | h
            · exact .inl (.inr (.inl h))
            · exact .inr (.inl ⟨-x, h, (hupdate _).mpr (.inl (Int.neg_neg x))⟩)
          · rcases List.mem_cons.mp h with h | h
            · exact .inr (.inl ⟨x, hx, (hupdate x).mpr (.inl h)⟩)
            · exact .inr (.inr ⟨x, hx, h⟩)

theorem falsify_marks {ls : List ℤ} {x : ℤ} : (falsify clear ls).1 x = true ↔ x ∈ negated ls := by
  rw [falsify, (falsify_foldl ls clear false).1 x]
  simp

/-- The loop sees every tautology. -/
theorem falsify_taut {ls : List ℤ} : (falsify clear ls).2 = true ↔ ∃ l ∈ ls, -l ∈ ls := by
  rw [falsify, (falsify_foldl ls clear false).2]
  simp

theorem falsify_clear (ls : List ℤ) : setMarks (falsify clear ls).1 (negated ls) false = clear :=
  setMarks_clear fun _ hx => falsify_marks.mp hx

/-! ## Importing -/

theorem lt_doubleSize {idx fuel size : ℕ} (h : idx < size * 2 ^ fuel) :
    idx < doubleSize idx fuel size ∧ size ≤ doubleSize idx fuel size := by
  induction fuel generalizing size with
  | zero =>
    rw [Nat.pow_zero, Nat.mul_one] at h
    exact ⟨h, Nat.le_refl size⟩
  | succ fuel ih =>
    rw [doubleSize]
    split
    · rw [Nat.pow_succ, Nat.mul_comm _ 2, ← Nat.mul_assoc, Nat.mul_comm size 2] at h
      obtain ⟨hlt, hle⟩ := ih h
      exact ⟨hlt, by omega⟩
    · exact ⟨by omega, Nat.le_refl size⟩

/-- `enlarge_vars` makes room for the variable. -/
theorem enlargeVars_spec (idx : ℕ) (s : LratChecker) :
    ∃ n, s.sizeVars ≤ n ∧ idx < n ∧ s.enlargeVars idx = { s with sizeVars := n } := by
  have hsize : 0 < if s.sizeVars = 0 then 2 else 2 * s.sizeVars := by split <;> omega
  have hgrow : s.sizeVars ≤ if s.sizeVars = 0 then 2 else 2 * s.sizeVars := by split <;> omega
  obtain ⟨hlt, hle⟩ := lt_doubleSize
    (Nat.lt_of_lt_of_le (Nat.lt_two_pow_self (n := idx)) (Nat.le_mul_of_pos_left _ hsize))
  exact ⟨_, Nat.le_trans hgrow hle, hlt, rfl⟩

theorem run_importLiteral_ok {l : ℤ} {s s' : LratChecker} (h : (importLiteral l).run s = (.ok (), s')) :
    l ≠ 0 ∧ ∃ n, s.sizeVars ≤ n ∧ l.natAbs < n ∧
      s' = { s with sizeVars := n, importedClause := s.importedClause ++ [l] } := by
  obtain ⟨_, s₁, hzero, h⟩ := run_bind_ok.mp h
  have hl : l ≠ 0 := by
    rintro rfl
    cases hzero
  rw [decide_eq_true hl, run_require_true] at hzero
  cases hzero
  obtain ⟨_, s₂, hroom, h⟩ := run_bind_ok.mp h
  have hs₂ : s₂ = if s.sizeVars ≤ l.natAbs then s.enlargeVars l.natAbs else s :=
    (congrArg Prod.snd hroom).symm
  have hs' : s' = { s₂ with importedClause := s₂.importedClause ++ [l] } := (congrArg Prod.snd h).symm
  refine ⟨hl, ?_⟩
  by_cases hsize : s.sizeVars ≤ l.natAbs
  · obtain ⟨n, hle, hlt, heq⟩ := enlargeVars_spec l.natAbs s
    rw [if_pos hsize, heq] at hs₂
    exact ⟨n, hle, hlt, by rw [hs', hs₂]⟩
  · rw [if_neg hsize] at hs₂
    exact ⟨s.sizeVars, Nat.le_refl _, by omega, by rw [hs', hs₂]⟩

/-- An imported clause has no zero and room for its variables. -/
theorem run_importClause_ok {c : List ℤ} {s s' : LratChecker}
    (h : (importClause c).run s = (.ok (), s')) :
    (∀ l ∈ c, l ≠ 0) ∧ ∃ n, s.sizeVars ≤ n ∧ (∀ l ∈ c, l.natAbs < n) ∧
      s' = { s with sizeVars := n, importedClause := s.importedClause ++ c } := by
  induction c generalizing s with
  | nil =>
    obtain rfl : s' = s := (congrArg Prod.snd h).symm
    exact ⟨by simp, s'.sizeVars, Nat.le_refl _, by simp, by simp⟩
  | cons l c ih =>
    obtain ⟨_, s₁, hl, h⟩ := run_bind_ok.mp h
    obtain ⟨hl0, n, hle, hlt, rfl⟩ := run_importLiteral_ok hl
    obtain ⟨hc0, n', hle', hlt', rfl⟩ := ih h
    refine ⟨List.forall_mem_cons.mpr ⟨hl0, hc0⟩, n', Nat.le_trans hle hle',
      List.forall_mem_cons.mpr ⟨Nat.lt_of_lt_of_le hlt hle', hlt'⟩, ?_⟩
    simp

/-! ## Searching -/

theorem reduceHash_lt {hash size : ℕ} (h : 0 < size) : reduceHash hash size < size := by
  unfold reduceHash
  exact Nat.lt_of_le_of_lt Nat.and_le_right (Nat.sub_lt h Nat.one_pos)

/-- A search leaves the checker as it is and returns what the chain has. -/
theorem run_find_ok {id : ℤ} {s s' : LratChecker} {r : Option LratCheckerClause}
    (h : (find id).run s = (.ok r, s')) :
    s' = s ∧ 0 ≤ id.tmod 4 ∧ s.clauses ≠ [] ∧ r = Buckets.find s.clauses (s.slot id) (isClause id) := by
  obtain ⟨_, s₁, hread, h⟩ := run_bind_ok.mp h
  cases hread
  obtain ⟨_, s₂, hindex, h⟩ := run_bind_ok.mp h
  obtain ⟨_, s₃, hempty, h⟩ := run_bind_ok.mp h
  by_cases hid : 0 ≤ id.tmod 4
  · rw [decide_eq_true hid, run_require_true] at hindex
    cases hindex
    cases hs : s.clauses.isEmpty with
    | true =>
      rw [hs, Bool.not_true, run_require_false] at hempty
      cases hempty
    | false =>
      rw [hs, Bool.not_false, run_require_true] at hempty
      cases hempty
      cases h
      exact ⟨rfl, hid, by rw [← List.isEmpty_eq_false_iff, hs], rfl⟩
  · rw [decide_eq_false hid, run_require_false] at hindex
    cases hindex

/-- What is found is in the table, under its identifier. -/
theorem found_mem {id : ℤ} {s : LratChecker} {c : LratCheckerClause}
    (h : Buckets.find s.clauses (s.slot id) (isClause id) = some c) :
    c ∈ s.clauses.flatten ∧ c.id = id := by
  obtain ⟨hmem, hc⟩ := Buckets.find_mem h
  rw [isClause, Bool.and_eq_true, beq_iff_eq, beq_iff_eq] at hc
  exact ⟨hmem, hc.2⟩

end Zusat.LratChecker
