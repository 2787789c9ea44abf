import Zusat.Cardinality.Sequential
import Mathlib.Algebra.BigOperators.Group.List.Basic
import Mathlib.Data.Set.Function
import Mathlib.Data.Set.Prod
import Mathlib.Order.Interval.Set.Basic
import Mathlib.Algebra.Group.Action.Defs
import Mathlib.Tactic.Ring

/-! # The shape of the sequential counter

How many clauses it has, which variables, and that no clause says a variable twice. The register is
laid out row by row, so a counter variable determines its row and its threshold. -/

namespace Zusat
open Foundations
set_option autoImplicit false

/-! ## The register -/

/-- The rows and thresholds of a counter for `n` literals and the bound `k`. -/
def register (n k : ℕ) : Set (ℕ × ℕ) := Set.Icc 1 (n - 1) ×ˢ Set.Icc 1 k

theorem mem_register {n k i j : ℕ} :
    (i, j) ∈ register n k ↔ (1 ≤ i ∧ i ≤ n - 1) ∧ 1 ≤ j ∧ j ≤ k := Iff.rfl

/-- The variable of a counter. -/
def counterVar (top k : ℕ) (p : ℕ × ℕ) : ℕ := (counter top k p.1 p.2).natAbs

theorem counterVar_eq (top k i j : ℕ) : counterVar top k (i, j) = top + (i - 1) * k + j :=
  Int.natAbs_natCast _

/-- A variable determines its row and its threshold. -/
theorem counter_inj {top k i j i' j' : ℕ} (hi : 1 ≤ i) (hi' : 1 ≤ i') (hj : 1 ≤ j) (hj' : 1 ≤ j')
    (hjk : j ≤ k) (hjk' : j' ≤ k) (h : top + (i - 1) * k + j = top + (i' - 1) * k + j') :
    i = i' ∧ j = j' := by
  have hrow : ∀ {a b c d : ℕ}, 1 ≤ c → c ≤ k → 1 ≤ d → d ≤ k → a < b →
      a * k + c ≠ b * k + d := by
    intro a b c d _ hc hd _ hab heq
    have hmul : (a + 1) * k ≤ b * k := Nat.mul_le_mul_right k hab
    rw [Nat.succ_mul] at hmul
    omega
  rcases Nat.lt_trichotomy (i - 1) (i' - 1) with hlt | heq | hgt
  · exact absurd (by omega) (hrow hj hjk hj' hjk' hlt)
  · rw [heq] at h
    omega
  · exact absurd (by omega) (hrow hj' hjk' hj hjk hgt)

/-- The register fills the block above `top`, each variable once. -/
theorem counterVar_bijOn (top n k : ℕ) :
    Set.BijOn (counterVar top k) (register n k) (Set.Icc (top + 1) (top + (n - 1) * k)) := by
  refine ⟨?_, ?_, ?_⟩
  · rintro ⟨i, j⟩ hp
    obtain ⟨⟨hi, hin⟩, hj, hjk⟩ := mem_register.mp hp
    have hlt := counter_lt hin hi hjk
    rw [counterVar_eq]
    exact ⟨by omega, by omega⟩
  · rintro ⟨i, j⟩ ⟨⟨hi, -⟩, hj, hjk⟩ ⟨i', j'⟩ ⟨⟨hi', -⟩, hj', hjk'⟩ h
    rw [counterVar_eq, counterVar_eq] at h
    obtain ⟨rfl, rfl⟩ := counter_inj hi hi' hj hj' hjk hjk' h
    rfl
  · rintro v ⟨hlo, hhi⟩
    obtain ⟨i, j, h1, hi, hj1, hj, rfl⟩ := exists_counter (show counterBlock top n k v from
      ⟨by omega, hhi⟩)
    exact ⟨(i, j), ⟨⟨h1, hi⟩, hj1, hj⟩, counterVar_eq top k i j⟩

/-! ## The clauses one by one -/

theorem length_upTo (a b : ℕ) : (upTo a b).length = b + 1 - a := by
  rw [upTo, List.length_range']

theorem length_sequentialRow (ls : List ℤ) {k : ℕ} (hk : 1 ≤ k) (top i : ℕ) :
    (sequentialRow ls k top i).length = 2 * k + 1 := by
  simp only [sequentialRow, List.length_append, List.length_flatMap, List.length_cons,
    List.length_nil, List.map_const', List.sum_replicate, length_upTo]
  simp only [smul_eq_mul]
  omega

theorem length_encodeSequential {ls : List ℤ} {k : ℕ} (hk : 1 ≤ k) (hkn : k < ls.length) (top : ℕ) :
    (encodeSequential ls k top).clauses.length + 3 * k + 1 = 2 * ls.length * k + ls.length := by
  rw [encodeSequential, if_neg (by omega), if_neg (by omega)]
  simp only [List.length_append, List.length_flatMap, List.length_map, List.length_cons,
    List.length_nil, length_sequentialRow ls hk, List.map_const', List.sum_replicate, length_upTo,
    smul_eq_mul]
  obtain ⟨m, hm⟩ : ∃ m, ls.length = m + 2 := ⟨ls.length - 2, by omega⟩
  rw [hm]
  have hrows : m + 2 - 1 + 1 - 2 = m := by omega
  rw [hrows]
  have hexp : m * (2 * k + 1) = 2 * (m * k) + m := by ring
  have hexp' : 2 * (m + 2) * k = 2 * (m * k) + 4 * k := by ring
  rw [hexp, hexp']
  omega

/-- A literal, negated, and one counter; one counter alone; two counters; a literal and two
counters. -/
inductive CounterClause (ls : List ℤ) (k top : ℕ) : List ℤ → Prop
  | low {i j : ℕ} (hp : (i, j) ∈ register ls.length k) :
      CounterClause ls k top [-counter top k i j]
  | one {x l : ℤ} {i j : ℕ} (hx : x ∈ ls) (hp : (i, j) ∈ register ls.length k)
      (hl : l = counter top k i j ∨ l = -counter top k i j) : CounterClause ls k top [-x, l]
  | two {i j i' j' : ℕ} (hp : (i, j) ∈ register ls.length k)
      (hp' : (i', j') ∈ register ls.length k) (hne : (i, j) ≠ (i', j')) :
      CounterClause ls k top [-counter top k i j, counter top k i' j']
  | three {x : ℤ} {i j i' j' : ℕ} (hx : x ∈ ls) (hp : (i, j) ∈ register ls.length k)
      (hp' : (i', j') ∈ register ls.length k) (hne : (i, j) ≠ (i', j')) :
      CounterClause ls k top [-x, -counter top k i j, counter top k i' j']

theorem counterClause_of_mem {ls : List ℤ} {k top : ℕ} (hk : 1 ≤ k) (hkn : k < ls.length)
    {cl : List ℤ} (hcl : cl ∈ (encodeSequential ls k top).clauses) : CounterClause ls k top cl := by
  have hreg : ∀ {i j : ℕ}, 1 ≤ i → i ≤ ls.length - 1 → 1 ≤ j → j ≤ k →
      (i, j) ∈ register ls.length k := fun hi hin hj hjk => ⟨⟨hi, hin⟩, hj, hjk⟩
  have hpred : ∀ {i j j' : ℕ}, 2 ≤ i → (i - 1, j) ≠ (i, j') := by
    intro i j j' hi h
    have := congrArg Prod.fst h
    change i - 1 = i at this
    omega
  rw [encodeSequential, if_neg (by omega), if_neg (by omega)] at hcl
  simp only [sequentialRow, List.mem_append, List.mem_cons, List.mem_map, List.mem_flatMap, mem_upTo,
    List.not_mem_nil, or_false] at hcl
  rcases hcl with ((rfl | ⟨j, hj, rfl⟩) | ⟨i, hi, hrow⟩) | rfl
  · exact .one (litAt_mem le_rfl (by omega)) (hreg le_rfl (by omega) le_rfl hk) (.inl rfl)
  · exact .low (hreg le_rfl (by omega) (by omega) hj.2)
  · have hx : litAt ls i ∈ ls := litAt_mem (by omega) (by omega)
    rcases hrow with ((rfl | rfl) | ⟨j, hj, rfl | rfl⟩) | rfl
    · exact .one hx (hreg (by omega) hi.2 le_rfl hk) (.inl rfl)
    · exact .two (hreg (by omega) (by omega) le_rfl hk) (hreg (by omega) hi.2 le_rfl hk)
        (hpred hi.1)
    · exact .three hx (hreg (by omega) (by omega) (by omega) (by omega))
        (hreg (by omega) hi.2 (by omega) hj.2) (hpred hi.1)
    · exact .two (hreg (by omega) (by omega) (by omega) hj.2) (hreg (by omega) hi.2 (by omega) hj.2)
        (hpred hi.1)
    · exact .one hx (hreg (by omega) (by omega) hk le_rfl) (.inr rfl)
  · exact .one (litAt_mem (by omega) le_rfl) (hreg (by omega) le_rfl hk le_rfl) (.inr rfl)

section Clause
variable {ls : List ℤ} {k top : ℕ} (hls : ∀ l ∈ ls, l ≠ 0) (htop : ∀ l ∈ ls, l.natAbs ≤ top)
include hls htop

/-- No clause is empty, none has a zero or says a variable twice. -/
theorem CounterClause.proper {cl : List ℤ} (h : CounterClause ls k top cl) :
    cl ≠ [] ∧ (0 : ℤ) ∉ cl ∧ (cl.map Int.natAbs).Nodup := by
  have hzero : ∀ {i j : ℕ}, (i, j) ∈ register ls.length k → counter top k i j ≠ 0 :=
    fun hp => counter_ne_zero hp.2.1
  have hneq : ∀ {x : ℤ} {i j : ℕ}, x ∈ ls → (i, j) ∈ register ls.length k →
      x.natAbs ≠ (counter top k i j).natAbs := by
    intro x i j hx hp h
    have hblock := (counterVar_bijOn top ls.length k).mapsTo hp
    have hle := htop x hx
    rw [h] at hle
    exact absurd hblock.1 (Nat.not_le.mpr (Nat.lt_succ_of_le hle))
  have hpair : ∀ {i j i' j' : ℕ}, (i, j) ∈ register ls.length k →
      (i', j') ∈ register ls.length k → (i, j) ≠ (i', j') →
      (counter top k i j).natAbs ≠ (counter top k i' j').natAbs :=
    fun hp hp' hne h => hne ((counterVar_bijOn top ls.length k).injOn hp hp' h)
  cases h with
  | low hp =>
    have := hzero hp
    refine ⟨by simp, ?_, by simp⟩
    simp only [List.mem_singleton]
    omega
  | @one x l i j hx hp hl =>
    have hx0 := hls x hx
    have hc0 := hzero hp
    have habs : l.natAbs = (counter top k i j).natAbs := by
      rcases hl with rfl | rfl
      · rfl
      · exact Int.natAbs_neg _
    have hl0 : l ≠ 0 := by
      intro h0
      rw [h0] at habs
      omega
    refine ⟨by simp, ?_, ?_⟩
    · simp only [List.mem_cons, List.not_mem_nil, or_false]
      omega
    · simp only [List.map_cons, List.map_nil, List.nodup_cons, List.mem_singleton, List.not_mem_nil,
        not_false_eq_true, List.nodup_nil, and_true, Int.natAbs_neg, habs]
      exact hneq hx hp
  | two hp hp' hne =>
    have := hzero hp
    have := hzero hp'
    refine ⟨by simp, ?_, ?_⟩
    · simp only [List.mem_cons, List.not_mem_nil, or_false]
      omega
    · simp only [List.map_cons, List.map_nil, List.nodup_cons, List.mem_singleton, List.not_mem_nil,
        not_false_eq_true, List.nodup_nil, and_true, Int.natAbs_neg]
      exact hpair hp hp' hne
  | @three x _ _ _ _ hx hp hp' hne =>
    have := hls x hx
    have := hzero hp
    have := hzero hp'
    refine ⟨by simp, ?_, ?_⟩
    · simp only [List.mem_cons, List.not_mem_nil, or_false]
      omega
    · simp only [List.map_cons, List.map_nil, List.nodup_cons, List.mem_cons,
        List.not_mem_nil, or_false, not_or, not_false_eq_true, List.nodup_nil, and_true,
        Int.natAbs_neg]
      exact ⟨⟨hneq hx hp, hneq hx hp'⟩, hpair hp hp' hne⟩

end Clause

/-! ## The counter as a whole -/

/-- The variables that occur in a formula. -/
def occurring (clauses : List (List ℤ)) : Set ℕ := {v | ∃ cl ∈ clauses, ∃ l ∈ cl, l.natAbs = v}

structure CounterShape (ls : List ℤ) (k top : ℕ) (enc : Encoded) : Prop where
  count : enc.clauses.length + 3 * k + 1 = 2 * ls.length * k + ls.length
  top_eq : enc.top = top + (ls.length - 1) * k
  layout : Set.BijOn (counterVar top k) (register ls.length k) (Set.Icc (top + 1) enc.top)
  vars : occurring enc.clauses = {v | ∃ l ∈ ls, l.natAbs = v} ∪ Set.Icc (top + 1) enc.top
  proper : ∀ cl ∈ enc.clauses, cl ≠ [] ∧ (0 : ℤ) ∉ cl ∧ (cl.map Int.natAbs).Nodup ∧
    ∀ l ∈ cl, l.natAbs ≤ enc.top

theorem counterShape {ls : List ℤ} {k top : ℕ} (hls : ∀ l ∈ ls, l ≠ 0)
    (htop : ∀ l ∈ ls, l.natAbs ≤ top) (hk : 1 ≤ k) (hkn : k < ls.length) :
    CounterShape ls k top (encodeSequential ls k top) := by
  have henc : (encodeSequential ls k top).top = top + (ls.length - 1) * k := by
    rw [encodeSequential, if_neg (by omega), if_neg (by omega)]
  have hvars : occurring (encodeSequential ls k top).clauses =
      {v | ∃ l ∈ ls, l.natAbs = v} ∪ Set.Icc (top + 1) (encodeSequential ls k top).top := by
    rw [henc]
    ext v
    constructor
    · rintro ⟨cl, hcl, l, hl, rfl⟩
      rcases encodeSequential_lits hk hkn hcl hl with hx | ⟨-, hb⟩
      · exact .inl ⟨-l, hx, Int.natAbs_neg l⟩
      · exact .inr ⟨hb.1, hb.2⟩
    · rintro (⟨l, hl, rfl⟩ | ⟨hlo, hhi⟩)
      · obtain ⟨cl, hcl, hmem⟩ := encodeSequential_mem hk hkn hl
        exact ⟨cl, hcl, -l, hmem, Int.natAbs_neg l⟩
      · exact encodeSequential_uses hk hkn ⟨hlo, hhi⟩
  refine ⟨length_encodeSequential hk hkn top, henc, henc ▸ counterVar_bijOn top ls.length k, hvars,
    fun cl hcl => ?_⟩
  obtain ⟨hne, h0, hnodup⟩ := (counterClause_of_mem hk hkn hcl).proper hls htop
  refine ⟨hne, h0, hnodup, fun l hl => ?_⟩
  have hmem : l.natAbs ∈ occurring (encodeSequential ls k top).clauses := ⟨cl, hcl, l, hl, rfl⟩
  rw [hvars] at hmem
  rcases hmem with ⟨x, hx, hxl⟩ | hb
  · have := htop x hx
    omega
  · exact hb.2

end Zusat
