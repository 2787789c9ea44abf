import Zusat.Model.Encoders

/-! # The pairwise encoding

A clause for every sublist of length k+1 says that no k+1 literals are true at once. -/

namespace Zusat
open Foundations
set_option autoImplicit false

theorem mem_combn {α : Type} {m : ℕ} {xs sub : List α} :
    sub ∈ combn m xs ↔ sub.Sublist xs ∧ sub.length = m := by
  induction xs generalizing m sub with
  | nil =>
    cases m with
    | zero => simp [combn]
    | succ m =>
      simp only [combn, List.not_mem_nil, List.sublist_nil, false_iff, not_and]
      rintro rfl
      simp
  | cons x xs ih =>
    cases m with
    | zero =>
      simp only [combn, List.mem_singleton, List.length_eq_zero_iff]
      constructor
      · rintro rfl
        exact ⟨List.nil_sublist _, rfl⟩
      · exact fun h => h.2
    | succ m =>
      rw [combn, List.mem_append, List.mem_map, ih, List.sublist_cons_iff]
      constructor
      · rintro (⟨r, hr, rfl⟩ | ⟨h, hl⟩)
        · rw [ih] at hr
          exact ⟨.inr ⟨r, rfl, hr.1⟩, by rw [List.length_cons, hr.2]⟩
        · exact ⟨.inl h, hl⟩
      · rintro ⟨h | ⟨r, rfl, hr⟩, hl⟩
        · exact .inr ⟨h, hl⟩
        · refine .inl ⟨r, ih.mpr ⟨hr, ?_⟩, rfl⟩
          simpa using hl

theorem satisfies_map_neg {α : Assignment} {ls : List ℤ} (h : ∀ l ∈ ls, l ≠ 0) :
    satisfies α (ls.map (- ·)) = true ↔ ∃ l ∈ ls, holds α l = false := by
  rw [satisfies_iff]
  constructor
  · rintro ⟨x, hx, hh⟩
    obtain ⟨l, hl, rfl⟩ := List.mem_map.mp hx
    rw [holds_neg (h l hl), Bool.not_eq_true'] at hh
    exact ⟨l, hl, hh⟩
  · rintro ⟨l, hl, hh⟩
    exact ⟨-l, List.mem_map_of_mem hl, by rw [holds_neg (h l hl), hh]; rfl⟩

/-- No sublist of length k+1 is all true exactly when at most k literals are. -/
theorem models_combn_iff {α : Assignment} {ls : List ℤ} (h : ∀ l ∈ ls, l ≠ 0) (k : ℕ) :
    models α ((combn (k + 1) ls).map fun sub => sub.map (- ·)) = true ↔ trueCount α ls ≤ k := by
  have hsub : ∀ sub : List ℤ, sub.Sublist ls → ∀ l ∈ sub, l ≠ 0 :=
    fun sub hs l hl => h l (hs.subset hl)
  rw [models_iff]
  constructor
  · intro hm
    by_contra hc
    have hlen : k + 1 ≤ (ls.filter (holds α)).length := by
      rw [← List.countP_eq_length_filter]
      exact Nat.lt_of_not_le hc
    -- the first k+1 true literals are a forbidden sublist
    have hs : ((ls.filter (holds α)).take (k + 1)).Sublist ls :=
      (List.take_sublist _ _).trans List.filter_sublist
    have hmem : (ls.filter (holds α)).take (k + 1) ∈ combn (k + 1) ls :=
      mem_combn.mpr ⟨hs, List.length_take_of_le hlen⟩
    obtain ⟨l, hl, hf⟩ := (satisfies_map_neg (hsub _ hs)).mp (hm _ (List.mem_map_of_mem hmem))
    have ht := (List.mem_filter.mp (List.mem_of_mem_take hl)).2
    rw [hf] at ht
    cases ht
  · intro hcount cl hcl
    obtain ⟨sub, hmem, rfl⟩ := List.mem_map.mp hcl
    obtain ⟨hs, hlen⟩ := mem_combn.mp hmem
    rw [satisfies_map_neg (hsub sub hs)]
    by_contra hc
    have hall : ∀ l ∈ sub, holds α l = true := by
      intro l hl
      by_contra hf
      exact hc ⟨l, hl, by simpa using hf⟩
    have hle : sub.countP (holds α) ≤ ls.countP (holds α) := hs.countP_le
    rw [List.countP_eq_length.mpr hall, hlen] at hle
    exact absurd (Nat.le_trans hle hcount) (by omega)

theorem encodePairwise_models {α : Assignment} {ls : List ℤ} (h : ∀ l ∈ ls, l ≠ 0) (k : ℕ) :
    models α (encodePairwise ls k) = true ↔ trueCount α ls ≤ k := by
  rw [encodePairwise]
  split
  · next hk => exact ⟨fun _ => le_trans (trueCount_le_length α ls) hk, fun _ => rfl⟩
  · exact models_combn_iff h k

theorem encodePairwise_lits {ls : List ℤ} {k : ℕ} {cl : List ℤ} (hcl : cl ∈ encodePairwise ls k)
    {l : ℤ} (hl : l ∈ cl) : -l ∈ ls := by
  rw [encodePairwise] at hcl
  split at hcl
  · cases hcl
  · obtain ⟨sub, hmem, rfl⟩ := List.mem_map.mp hcl
    obtain ⟨x, hx, rfl⟩ := List.mem_map.mp hl
    rw [Int.neg_neg]
    exact (mem_combn.mp hmem).1.subset hx

/-- Every literal is in some clause, since every element is in a sublist of each positive length. -/
theorem encodePairwise_mem {ls : List ℤ} {k : ℕ} (hk : k < ls.length) {l : ℤ} (hl : l ∈ ls) :
    ∃ cl ∈ encodePairwise ls k, -l ∈ cl := by
  rw [encodePairwise, if_neg (Nat.not_le.mpr hk)]
  obtain ⟨xs, ys, rfl⟩ := List.append_of_mem hl
  have hlen : k ≤ (xs ++ ys).length := by
    simp only [List.length_append, List.length_cons] at hk ⊢
    omega
  let sub := xs.take k ++ l :: ys.take (k - xs.length)
  have hsublist : sub.Sublist (xs ++ l :: ys) :=
    (List.take_sublist _ _).append ((List.take_sublist _ _).cons_cons l)
  have hsublen : sub.length = k + 1 := by
    simp only [sub, List.length_append, List.length_cons, List.length_take] at hlen ⊢
    omega
  refine ⟨sub.map (- ·), List.mem_map_of_mem (mem_combn.mpr ⟨hsublist, hsublen⟩), ?_⟩
  exact List.mem_map_of_mem (by simp [sub])

end Zusat
