import Zusat.Model.Encoders
import Mathlib.Data.List.GetD

/-! # The sequential counter

`s(i, j)` is meant to say that at least `j` of the first `i` literals are true. The clauses only force
it in one direction, which is enough: a model of the clauses has at most `k` true literals, and an
assignment with at most `k` true literals extends to one by giving every counter its meaning. -/

namespace Zusat
open Foundations
set_option autoImplicit false

theorem mem_upTo {a b j : ℕ} : j ∈ upTo a b ↔ a ≤ j ∧ j ≤ b := by
  rw [upTo, List.mem_range'_1]
  omega

theorem models_flatMap {β : Type} {α : Assignment} {xs : List β} {f : β → List (List ℤ)} :
    models α (xs.flatMap f) = true ↔ ∀ x ∈ xs, models α (f x) = true := by
  simp only [models_iff, List.mem_flatMap]
  constructor
  · exact fun h x hx cl hcl => h cl ⟨x, hx, hcl⟩
  · rintro h cl ⟨x, hx, hcl⟩
    exact h x hx cl hcl

/-- The number of true literals among the first `i`. -/
def prefixCount (α : Assignment) (ls : List ℤ) (i : ℕ) : ℕ := trueCount α (ls.take i)

theorem prefixCount_length (α : Assignment) (ls : List ℤ) :
    prefixCount α ls ls.length = trueCount α ls := by
  rw [prefixCount, List.take_length]

theorem prefixCount_le (α : Assignment) (ls : List ℤ) (i : ℕ) :
    prefixCount α ls i ≤ trueCount α ls := (List.take_sublist i ls).countP_le

theorem prefixCount_le_self (α : Assignment) (ls : List ℤ) (i : ℕ) : prefixCount α ls i ≤ i :=
  le_trans (trueCount_le_length α _) (List.length_take_le i ls)

theorem prefixCount_succ (α : Assignment) (ls : List ℤ) {i : ℕ} (hi : i < ls.length) :
    prefixCount α ls (i + 1) =
      prefixCount α ls i + if holds α (litAt ls (i + 1)) = true then 1 else 0 := by
  have hlit : litAt ls (i + 1) = ls[i] := by
    rw [litAt, Nat.add_sub_cancel, List.getD_eq_getElem _ _ hi]
  rw [prefixCount, prefixCount, List.take_succ_eq_append_getElem hi, trueCount, trueCount,
    List.countP_append, List.countP_singleton, hlit]

theorem litAt_mem {ls : List ℤ} {i : ℕ} (h1 : 1 ≤ i) (hi : i ≤ ls.length) : litAt ls i ∈ ls := by
  rw [litAt, List.getD_eq_getElem _ _ (by omega)]
  exact List.getElem_mem _

/-! ## The clauses as implications -/

/-- What the clauses of the counter say of the literals `x i` and the counters `s i j`. -/
structure Counts (n k : ℕ) (x : ℕ → Prop) (s : ℕ → ℕ → Prop) : Prop where
  start : x 1 → s 1 1
  low : ∀ j, 2 ≤ j → j ≤ k → ¬s 1 j
  set : ∀ i, 2 ≤ i → i ≤ n - 1 → x i → s i 1
  keepOne : ∀ i, 2 ≤ i → i ≤ n - 1 → s (i - 1) 1 → s i 1
  up : ∀ i, 2 ≤ i → i ≤ n - 1 → ∀ j, 2 ≤ j → j ≤ k → x i → s (i - 1) (j - 1) → s i j
  keep : ∀ i, 2 ≤ i → i ≤ n - 1 → ∀ j, 2 ≤ j → j ≤ k → s (i - 1) j → s i j
  full : ∀ i, 2 ≤ i → i ≤ n - 1 → x i → ¬s (i - 1) k
  last : x n → ¬s (n - 1) k

theorem holds_counter (α : Assignment) (top k i j : ℕ) :
    holds α (counter top k i j) = α (top + (i - 1) * k + j) := holds_natCast α _

theorem counter_ne_zero {top k i j : ℕ} (hj : 1 ≤ j) : counter top k i j ≠ 0 := by
  rw [counter]
  omega

theorem satisfies_two {α : Assignment} {a b : ℤ} (ha : a ≠ 0) :
    satisfies α [-a, b] = true ↔ (holds α a = true → holds α b = true) := by
  simp only [satisfies, List.any_cons, List.any_nil, Bool.or_false, holds_neg ha]
  cases holds α a <;> simp

theorem satisfies_not_two {α : Assignment} {a b : ℤ} (ha : a ≠ 0) (hb : b ≠ 0) :
    satisfies α [-a, -b] = true ↔ (holds α a = true → ¬holds α b = true) := by
  simp only [satisfies, List.any_cons, List.any_nil, Bool.or_false, holds_neg ha, holds_neg hb]
  cases holds α a <;> simp

theorem satisfies_three {α : Assignment} {a b c : ℤ} (ha : a ≠ 0) (hb : b ≠ 0) :
    satisfies α [-a, -b, c] = true ↔
      (holds α a = true → holds α b = true → holds α c = true) := by
  simp only [satisfies, List.any_cons, List.any_nil, Bool.or_false, holds_neg ha, holds_neg hb]
  cases holds α a <;> cases holds α b <;> simp

theorem satisfies_not_one {α : Assignment} {a : ℤ} (ha : a ≠ 0) :
    satisfies α [-a] = true ↔ ¬holds α a = true := by
  simp only [satisfies, List.any_cons, List.any_nil, Bool.or_false, holds_neg ha]
  cases holds α a <;> simp

theorem models_map {β : Type} {α : Assignment} {xs : List β} {f : β → List ℤ} :
    models α (xs.map f) = true ↔ ∀ x ∈ xs, satisfies α (f x) = true := by
  simp only [models_iff, List.forall_mem_map]

theorem models_sequentialRow {α : Assignment} {ls : List ℤ} {k top i : ℕ} (hk : 1 ≤ k)
    (hi : litAt ls i ≠ 0) :
    models α (sequentialRow ls k top i) = true ↔
      ((holds α (litAt ls i) = true → α (top + (i - 1) * k + 1) = true) ∧
        (α (top + (i - 1 - 1) * k + 1) = true → α (top + (i - 1) * k + 1) = true)) ∧
      (∀ j, 2 ≤ j ∧ j ≤ k →
        (holds α (litAt ls i) = true → α (top + (i - 1 - 1) * k + (j - 1)) = true →
          α (top + (i - 1) * k + j) = true) ∧
        (α (top + (i - 1 - 1) * k + j) = true → α (top + (i - 1) * k + j) = true)) ∧
      (holds α (litAt ls i) = true → ¬α (top + (i - 1 - 1) * k + k) = true) := by
  have hpair : ∀ c₁ c₂ : List ℤ, models α [c₁, c₂] = true ↔
      satisfies α c₁ = true ∧ satisfies α c₂ = true := by
    intro c₁ c₂
    simp [models]
  rw [sequentialRow, models_append_iff, models_append_iff, models_flatMap, models_singleton, hpair,
    satisfies_two hi, satisfies_two (counter_ne_zero le_rfl), satisfies_not_two hi
    (counter_ne_zero hk), holds_counter, holds_counter, holds_counter, and_assoc]
  refine and_congr_right fun _ => and_congr_left fun _ => forall_congr' fun j => ?_
  rw [mem_upTo]
  refine imp_congr_right fun hj => ?_
  rw [hpair, satisfies_three hi (counter_ne_zero (by omega)),
    satisfies_two (counter_ne_zero (by omega)), holds_counter, holds_counter, holds_counter]

theorem models_encodeSequential {α : Assignment} {ls : List ℤ} {k top : ℕ}
    (hls : ∀ l ∈ ls, l ≠ 0) (hk : 1 ≤ k) (hkn : k < ls.length) :
    models α (encodeSequential ls k top).clauses = true ↔
      Counts ls.length k (fun i => holds α (litAt ls i) = true)
        (fun i j => α (top + (i - 1) * k + j) = true) := by
  have hlit : ∀ i, 1 ≤ i → i ≤ ls.length → litAt ls i ≠ 0 :=
    fun i h1 hi => hls _ (litAt_mem h1 hi)
  rw [encodeSequential, if_neg (by omega), if_neg (by omega)]
  rw [models_append_iff, models_append_iff, models_append_iff, models_singleton, models_singleton,
    models_map, models_flatMap, satisfies_two (hlit 1 (by omega) (by omega)),
    satisfies_not_two (hlit _ (by omega) le_rfl) (counter_ne_zero hk), holds_counter,
    holds_counter]
  have hrow : ∀ i, i ∈ upTo 2 (ls.length - 1) → litAt ls i ≠ 0 := by
    intro i hi
    rw [mem_upTo] at hi
    exact hlit i (by omega) (by omega)
  constructor
  · rintro ⟨⟨⟨hstart, hlow⟩, hrows⟩, hlast⟩
    have hr := fun i h2 hi => (models_sequentialRow hk (hrow i (mem_upTo.mpr ⟨h2, hi⟩))).mp
      (hrows i (mem_upTo.mpr ⟨h2, hi⟩))
    refine ⟨hstart, fun j h2 hj => ?_, fun i h2 hi => (hr i h2 hi).1.1,
      fun i h2 hi => (hr i h2 hi).1.2, fun i h2 hi j hj hjk => ((hr i h2 hi).2.1 j ⟨hj, hjk⟩).1,
      fun i h2 hi j hj hjk => ((hr i h2 hi).2.1 j ⟨hj, hjk⟩).2,
      fun i h2 hi => (hr i h2 hi).2.2, hlast⟩
    have := hlow j (mem_upTo.mpr ⟨h2, hj⟩)
    rwa [satisfies_not_one (counter_ne_zero (by omega)), holds_counter] at this
  · intro h
    refine ⟨⟨⟨h.start, fun j hj => ?_⟩, fun i hi => ?_⟩, h.last⟩
    · rw [satisfies_not_one (counter_ne_zero (by rw [mem_upTo] at hj; omega)), holds_counter]
      exact h.low j (mem_upTo.mp hj).1 (mem_upTo.mp hj).2
    · obtain ⟨h2, hin⟩ := mem_upTo.mp hi
      exact (models_sequentialRow hk (hrow i hi)).mpr ⟨⟨h.set i h2 hin, h.keepOne i h2 hin⟩,
        fun j hj => ⟨h.up i h2 hin j hj.1 hj.2, h.keep i h2 hin j hj.1 hj.2⟩, h.full i h2 hin⟩

/-! ## Soundness: a model counts right -/

theorem counts_prefix {α : Assignment} {ls : List ℤ} {k : ℕ} {s : ℕ → ℕ → Prop} (hk : 1 ≤ k)
    (h : Counts ls.length k (fun i => holds α (litAt ls i) = true) s) {i : ℕ} (h1 : 1 ≤ i)
    (hi : i ≤ ls.length - 1) :
    (∀ j, 1 ≤ j → j ≤ prefixCount α ls i → s i j) ∧ prefixCount α ls i ≤ k := by
  induction i with
  | zero => omega
  | succ i ih =>
    have hsucc := prefixCount_succ α ls (i := i) (by omega)
    rcases Nat.eq_zero_or_pos i with rfl | hpos
    · have h0 : prefixCount α ls 0 = 0 := rfl
      rw [h0] at hsucc
      split at hsucc
      · next hx =>
        refine ⟨fun j hj hle => ?_, by omega⟩
        obtain rfl : j = 1 := by omega
        exact h.start hx
      · exact ⟨fun j hj hle => by omega, by omega⟩
    · obtain ⟨ihs, ihk⟩ := ih hpos (by omega)
      split at hsucc
      · next hx =>
        -- the count has gone up: the counter one below was set, so it is not yet full
        have hlt : prefixCount α ls i < k := by
          by_contra hc
          exact h.full (i + 1) (by omega) hi hx (ihs k hk (by omega))
        refine ⟨fun j hj hle => ?_, by omega⟩
        rcases Nat.lt_or_ge j 2 with hj1 | hj2
        · obtain rfl : j = 1 := by omega
          exact h.set (i + 1) (by omega) hi hx
        · exact h.up (i + 1) (by omega) hi j hj2 (by omega) hx (ihs (j - 1) (by omega) (by omega))
      · refine ⟨fun j hj hle => ?_, by omega⟩
        rcases Nat.lt_or_ge j 2 with hj1 | hj2
        · obtain rfl : j = 1 := by omega
          exact h.keepOne (i + 1) (by omega) hi (ihs 1 le_rfl (by omega))
        · exact h.keep (i + 1) (by omega) hi j hj2 (by omega) (ihs j hj (by omega))

theorem counts_sound {α : Assignment} {ls : List ℤ} {k : ℕ} {s : ℕ → ℕ → Prop} (hk : 1 ≤ k)
    (hkn : k < ls.length)
    (h : Counts ls.length k (fun i => holds α (litAt ls i) = true) s) : trueCount α ls ≤ k := by
  obtain ⟨hs, hle⟩ := counts_prefix hk h (i := ls.length - 1) (by omega) le_rfl
  have hsucc := prefixCount_succ α ls (i := ls.length - 1) (by omega)
  rw [Nat.sub_add_cancel (by omega), prefixCount_length] at hsucc
  split at hsucc
  · next hx =>
    have : prefixCount α ls (ls.length - 1) < k := by
      by_contra hc
      exact h.last hx (hs k hk (by omega))
    omega
  · omega

/-! ## Completeness: the counters take their meaning -/

theorem counts_complete {α : Assignment} {ls : List ℤ} {k : ℕ} (hkn : k < ls.length)
    (hcount : trueCount α ls ≤ k) :
    Counts ls.length k (fun i => holds α (litAt ls i) = true)
      (fun i j => j ≤ prefixCount α ls i) := by
  have hsucc : ∀ i, 1 ≤ i → i ≤ ls.length → prefixCount α ls i =
      prefixCount α ls (i - 1) + if holds α (litAt ls i) = true then 1 else 0 := by
    intro i h1 hi
    have := prefixCount_succ α ls (i := i - 1) (by omega)
    rwa [Nat.sub_add_cancel h1] at this
  have hup : ∀ i, 1 ≤ i → i ≤ ls.length → holds α (litAt ls i) = true →
      prefixCount α ls i = prefixCount α ls (i - 1) + 1 := by
    intro i h1 hi hx
    rw [hsucc i h1 hi, if_pos hx]
  have hmono : ∀ i, 1 ≤ i → i ≤ ls.length → prefixCount α ls (i - 1) ≤ prefixCount α ls i := by
    intro i h1 hi
    rw [hsucc i h1 hi]
    omega
  have hbound := prefixCount_le α ls
  refine ⟨fun hx => ?_, fun j h2 _ => ?_, fun i h2 hi hx => ?_, fun i h2 hi hs => ?_,
    fun i h2 hi j _ _ hx hs => ?_, fun i h2 hi j _ _ hs => ?_, fun i h2 hi hx hs => ?_,
    fun hx hs => ?_⟩
  · have := hup 1 le_rfl (by omega) hx
    omega
  · have := prefixCount_le_self α ls 1
    omega
  · have := hup i (by omega) (by omega) hx
    omega
  · exact le_trans hs (hmono i (by omega) (by omega))
  · have := hup i (by omega) (by omega) hx
    omega
  · exact le_trans hs (hmono i (by omega) (by omega))
  · have := hup i (by omega) (by omega) hx
    have := hbound i
    omega
  · have := hup ls.length (by omega) le_rfl hx
    have := hbound ls.length
    omega

/-- The clauses only speak of the literals `1..n` and the counters of `1..n-1` times `1..k`. -/
theorem Counts.congr {n k : ℕ} {x x' : ℕ → Prop} {s s' : ℕ → ℕ → Prop} (hk : 1 ≤ k) (hkn : k < n)
    (hx : ∀ i, 1 ≤ i → i ≤ n → (x i ↔ x' i))
    (hs : ∀ i j, 1 ≤ i → i ≤ n - 1 → 1 ≤ j → j ≤ k → (s i j ↔ s' i j)) (h : Counts n k x s) :
    Counts n k x' s' where
  start h1 := (hs 1 1 le_rfl (by omega) le_rfl hk).mp (h.start ((hx 1 le_rfl (by omega)).mpr h1))
  low j h2 hj h1 := h.low j h2 hj ((hs 1 j le_rfl (by omega) (by omega) hj).mpr h1)
  set i h2 hi h1 := (hs i 1 (by omega) hi le_rfl hk).mp
    (h.set i h2 hi ((hx i (by omega) (by omega)).mpr h1))
  keepOne i h2 hi h1 := (hs i 1 (by omega) hi le_rfl hk).mp
    (h.keepOne i h2 hi ((hs (i - 1) 1 (by omega) (by omega) le_rfl hk).mpr h1))
  up i h2 hi j hj hjk h1 h3 := (hs i j (by omega) hi (by omega) hjk).mp
    (h.up i h2 hi j hj hjk ((hx i (by omega) (by omega)).mpr h1)
      ((hs (i - 1) (j - 1) (by omega) (by omega) (by omega) (by omega)).mpr h3))
  keep i h2 hi j hj hjk h1 := (hs i j (by omega) hi (by omega) hjk).mp
    (h.keep i h2 hi j hj hjk ((hs (i - 1) j (by omega) (by omega) (by omega) hjk).mpr h1))
  full i h2 hi h1 h3 := h.full i h2 hi ((hx i (by omega) (by omega)).mpr h1)
    ((hs (i - 1) k (by omega) (by omega) hk le_rfl).mpr h3)
  last h1 h3 := h.last ((hx n (by omega) le_rfl).mpr h1)
    ((hs (n - 1) k (by omega) le_rfl hk le_rfl).mpr h3)

/-- The variables the counter adds above `top`. -/
def counterBlock (top n k v : ℕ) : Prop := top < v ∧ v ≤ top + (n - 1) * k

instance (top n k v : ℕ) : Decidable (counterBlock top n k v) :=
  inferInstanceAs (Decidable (_ ∧ _))

/-- The assignment with every counter of the block at its meaning. -/
def fillCounters (α : Assignment) (ls : List ℤ) (k top : ℕ) : Assignment := fun v =>
  if counterBlock top ls.length k v then
    decide ((v - top - 1) % k + 1 ≤ prefixCount α ls ((v - top - 1) / k + 1))
  else α v

theorem counter_lt {n k i j : ℕ} (hi : i ≤ n - 1) (h1 : 1 ≤ i) (hj : j ≤ k) :
    (i - 1) * k + j ≤ (n - 1) * k := by
  have : (i - 1) * k + k ≤ (n - 1) * k := by
    rw [← Nat.succ_mul]
    exact Nat.mul_le_mul_right k (by omega)
  omega

theorem fillCounters_counter {α : Assignment} {ls : List ℤ} {k top i j : ℕ} (h1 : 1 ≤ i)
    (hi : i ≤ ls.length - 1) (hj1 : 1 ≤ j) (hj : j ≤ k) :
    fillCounters α ls k top (top + (i - 1) * k + j) = true ↔ j ≤ prefixCount α ls i := by
  have hlt := counter_lt hi h1 hj
  have hblock : counterBlock top ls.length k (top + (i - 1) * k + j) := ⟨by omega, by omega⟩
  have hv : top + (i - 1) * k + j - top - 1 = (j - 1) + k * (i - 1) := by
    rw [Nat.mul_comm k]
    omega
  have hmod : ((j - 1) + k * (i - 1)) % k = j - 1 := by
    rw [Nat.add_mul_mod_self_left, Nat.mod_eq_of_lt (by omega)]
  have hdiv : ((j - 1) + k * (i - 1)) / k = i - 1 := by
    rw [Nat.add_mul_div_left _ _ (by omega), Nat.div_eq_of_lt (by omega), Nat.zero_add]
  rw [fillCounters, if_pos hblock, hv, hmod, hdiv, Nat.sub_add_cancel h1, Nat.sub_add_cancel hj1,
    decide_eq_true_iff]

theorem agreeOff_fillCounters (α : Assignment) (ls : List ℤ) (k top : ℕ) :
    AgreeOff (counterBlock top ls.length k) α (fillCounters α ls k top) := fun _ hv => if_neg hv

/-- Over the variables up to `top`, the counter says that at most `k` literals are true. -/
theorem means_encodeSequential {ls : List ℤ} {k top : ℕ} (hls : ∀ l ∈ ls, l ≠ 0)
    (htop : ∀ l ∈ ls, l.natAbs ≤ top) (hk : 1 ≤ k) (hkn : k < ls.length) :
    Means (counterBlock top ls.length k) (encodeSequential ls k top).clauses
      (fun α => trueCount α ls ≤ k) := by
  have hfree : ∀ {α β : Assignment}, AgreeOff (counterBlock top ls.length k) α β →
      ∀ l ∈ ls, β l.natAbs = α l.natAbs := by
    intro α β h l hl
    refine h _ fun hb => ?_
    have := htop l hl
    exact absurd hb.1 (by omega)
  intro α
  constructor
  · rintro ⟨β, hβ, hm⟩
    have hcounts := counts_sound hk hkn ((models_encodeSequential hls hk hkn).mp hm)
    rwa [trueCount_congr (hfree hβ)] at hcounts
  · intro hcount
    have hβ := agreeOff_fillCounters α ls k top
    refine ⟨_, hβ, (models_encodeSequential hls hk hkn).mpr ?_⟩
    refine (counts_complete hkn hcount).congr hk hkn (fun i h1 hi => ?_)
      (fun i j h1 hi hj1 hj => (fillCounters_counter h1 hi hj1 hj).symm)
    rw [holds_congr (hfree hβ _ (litAt_mem h1 hi))]

/-! ## The variables of the clauses -/

/-- A variable of the counter's clauses is a literal's or one of the block. -/
theorem encodeSequential_lits {ls : List ℤ} {k top : ℕ} (hk : 1 ≤ k) (hkn : k < ls.length)
    {cl : List ℤ} (hcl : cl ∈ (encodeSequential ls k top).clauses) {l : ℤ} (hl : l ∈ cl) :
    (-l ∈ ls) ∨ (l ≠ 0 ∧ counterBlock top ls.length k l.natAbs) := by
  have hcounter : ∀ i j, 1 ≤ i → i ≤ ls.length - 1 → 1 ≤ j → j ≤ k → ∀ l : ℤ,
      (l = counter top k i j ∨ l = -counter top k i j) →
        l ≠ 0 ∧ counterBlock top ls.length k l.natAbs := by
    intro i j h1 hi hj1 hj l hl
    have hlt := counter_lt hi h1 hj
    have habs : l.natAbs = top + (i - 1) * k + j := by
      rcases hl with rfl | rfl
      · rw [counter, Int.natAbs_natCast]
      · rw [counter, Int.natAbs_neg, Int.natAbs_natCast]
    refine ⟨fun h0 => ?_, ?_, ?_⟩
    · rw [h0, Int.natAbs_zero] at habs
      omega
    · omega
    · omega
  have hlit : ∀ i, 1 ≤ i → i ≤ ls.length → ∀ l : ℤ, l = -litAt ls i → -l ∈ ls := by
    rintro i h1 hi l rfl
    rw [Int.neg_neg]
    exact litAt_mem h1 hi
  rw [encodeSequential, if_neg (by omega), if_neg (by omega)] at hcl
  simp only [sequentialRow, List.mem_append, List.mem_cons, List.mem_map, List.mem_flatMap, mem_upTo,
    List.not_mem_nil, or_false] at hcl
  rcases hcl with ((rfl | ⟨j, hj, rfl⟩) | ⟨i, hi, hrow⟩) | rfl
  · simp only [List.mem_cons, List.not_mem_nil, or_false] at hl
    rcases hl with h | h
    · exact .inl (hlit 1 le_rfl (by omega) _ h)
    · exact .inr (hcounter 1 1 le_rfl (by omega) le_rfl hk _ (.inl h))
  · rw [List.mem_singleton] at hl
    exact .inr (hcounter 1 j le_rfl (by omega) (by omega) hj.2 _ (.inr hl))
  · rcases hrow with ((rfl | rfl) | ⟨j, hj, rfl | rfl⟩) | rfl
    · simp only [List.mem_cons, List.not_mem_nil, or_false] at hl
      rcases hl with h | h
      · exact .inl (hlit i (by omega) (by omega) _ h)
      · exact .inr (hcounter i 1 (by omega) hi.2 le_rfl hk _ (.inl h))
    · simp only [List.mem_cons, List.not_mem_nil, or_false] at hl
      rcases hl with h | h
      · exact .inr (hcounter (i - 1) 1 (by omega) (by omega) le_rfl hk _ (.inr h))
      · exact .inr (hcounter i 1 (by omega) hi.2 le_rfl hk _ (.inl h))
    · simp only [List.mem_cons, List.not_mem_nil, or_false] at hl
      rcases hl with h | h | h
      · exact .inl (hlit i (by omega) (by omega) _ h)
      · exact .inr (hcounter (i - 1) (j - 1) (by omega) (by omega) (by omega) (by omega) _ (.inr h))
      · exact .inr (hcounter i j (by omega) hi.2 (by omega) hj.2 _ (.inl h))
    · simp only [List.mem_cons, List.not_mem_nil, or_false] at hl
      rcases hl with h | h
      · exact .inr (hcounter (i - 1) j (by omega) (by omega) (by omega) hj.2 _ (.inr h))
      · exact .inr (hcounter i j (by omega) hi.2 (by omega) hj.2 _ (.inl h))
    · simp only [List.mem_cons, List.not_mem_nil, or_false] at hl
      rcases hl with h | h
      · exact .inl (hlit i (by omega) (by omega) _ h)
      · exact .inr (hcounter (i - 1) k (by omega) (by omega) hk le_rfl _ (.inr h))
  · simp only [List.mem_cons, List.not_mem_nil, or_false] at hl
    rcases hl with h | h
    · exact .inl (hlit ls.length (by omega) le_rfl _ h)
    · exact .inr (hcounter (ls.length - 1) k (by omega) le_rfl hk le_rfl _ (.inr h))

/-- Every variable of the block is the counter of a row `i` and a threshold `j`. -/
theorem exists_counter {top n k v : ℕ} (hv : counterBlock top n k v) :
    ∃ i j, 1 ≤ i ∧ i ≤ n - 1 ∧ 1 ≤ j ∧ j ≤ k ∧ v = top + (i - 1) * k + j := by
  have hlo := hv.1
  have hhi := hv.2
  have hk : 0 < k := by
    rcases Nat.eq_zero_or_pos k with rfl | hpos
    · rw [Nat.mul_zero] at hhi
      omega
    · exact hpos
  refine ⟨(v - top - 1) / k + 1, (v - top - 1) % k + 1, Nat.le_add_left 1 _, ?_,
    Nat.le_add_left 1 _, ?_, ?_⟩
  · have : (v - top - 1) / k < n - 1 := by
      rw [Nat.div_lt_iff_lt_mul hk]
      omega
    omega
  · exact Nat.mod_lt _ hk
  · rw [Nat.add_sub_cancel, Nat.mul_comm]
    have := Nat.div_add_mod (v - top - 1) k
    omega

/-- Every variable of the block occurs in a clause, the highest one included. -/
theorem encodeSequential_uses {ls : List ℤ} {k top v : ℕ} (hk : 1 ≤ k) (hkn : k < ls.length)
    (hv : counterBlock top ls.length k v) :
    ∃ cl ∈ (encodeSequential ls k top).clauses, ∃ l ∈ cl, l.natAbs = v := by
  obtain ⟨i, j, h1, hi, hj1, hj, rfl⟩ := exists_counter hv
  have habs : (counter top k i j).natAbs = top + (i - 1) * k + j := Int.natAbs_natCast _
  rw [encodeSequential, if_neg (by omega), if_neg (by omega)]
  rcases Nat.lt_or_ge i 2 with hi1 | hi2
  · obtain rfl : i = 1 := by omega
    rcases Nat.lt_or_ge j 2 with hj' | hj2
    · obtain rfl : j = 1 := by omega
      exact ⟨[-litAt ls 1, counter top k 1 1], by simp, counter top k 1 1, by simp, habs⟩
    · refine ⟨[-counter top k 1 j], ?_, -counter top k 1 j, by simp, by rw [Int.natAbs_neg, habs]⟩
      simp only [List.mem_append, List.mem_map, mem_upTo]
      exact .inl (.inl (.inr ⟨j, ⟨hj2, hj⟩, rfl⟩))
  · have hrow : ∀ cl ∈ sequentialRow ls k top i, cl ∈
        [[-litAt ls 1, counter top k 1 1]] ++ (upTo 2 k).map (fun j => [-counter top k 1 j]) ++
          (upTo 2 (ls.length - 1)).flatMap (sequentialRow ls k top) ++
          [[-litAt ls ls.length, -counter top k (ls.length - 1) k]] := by
      intro cl hcl
      simp only [List.mem_append, List.mem_flatMap, mem_upTo]
      exact .inl (.inr ⟨i, ⟨hi2, hi⟩, hcl⟩)
    rcases Nat.lt_or_ge j 2 with hj' | hj2
    · obtain rfl : j = 1 := by omega
      exact ⟨[-litAt ls i, counter top k i 1], hrow _ (by simp [sequentialRow]),
        counter top k i 1, by simp, habs⟩
    · refine ⟨[-counter top k (i - 1) j, counter top k i j], hrow _ ?_, counter top k i j, by simp,
        habs⟩
      simp only [sequentialRow, List.mem_append, List.mem_flatMap, mem_upTo]
      exact .inl (.inr ⟨j, ⟨hj2, hj⟩, by simp⟩)

/-- Every literal occurs in a clause. -/
theorem encodeSequential_mem {ls : List ℤ} {k top : ℕ} (hk : 1 ≤ k) (hkn : k < ls.length) {l : ℤ}
    (hl : l ∈ ls) : ∃ cl ∈ (encodeSequential ls k top).clauses, -l ∈ cl := by
  obtain ⟨i, hi, rfl⟩ := List.getElem_of_mem hl
  have hlit : ls[i] = litAt ls (i + 1) := by
    rw [litAt, Nat.add_sub_cancel, List.getD_eq_getElem _ _ hi]
  rw [hlit, encodeSequential, if_neg (by omega), if_neg (by omega)]
  rcases Nat.eq_zero_or_pos i with rfl | hpos
  · exact ⟨[-litAt ls 1, counter top k 1 1], by simp, by simp⟩
  · rcases Nat.lt_or_ge (i + 1) ls.length with hlt | hge
    · refine ⟨[-litAt ls (i + 1), counter top k (i + 1) 1], ?_, by simp⟩
      simp only [List.mem_append, List.mem_flatMap, mem_upTo]
      exact .inl (.inr ⟨i + 1, ⟨by omega, by omega⟩, by simp [sequentialRow]⟩)
    · have hlast : i + 1 = ls.length := by omega
      rw [hlast]
      exact ⟨[-litAt ls ls.length, -counter top k (ls.length - 1) k], by simp, by simp⟩

end Zusat
