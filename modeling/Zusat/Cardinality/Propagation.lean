import Zusat.Cardinality.Pairwise
import Zusat.Cardinality.Shape
import Zusat.Foundations.Propagation

/-! # Unit propagation on the encodings

Over the counter, what is true so far moves forward through the rows: `s(i, j)` for every `j` up to the
number of true literals among the first `i`. Once `k` are true, what is still to come moves backward:
`-s(i, j)` for every `j` above that number. At a literal that is not true the two meet and make it
false. -/

namespace Zusat
open Foundations
set_option autoImplicit false

/-- The clauses of the counter that propagate, for literals `x i` and counters `s i j`. The remaining
ones, `-s(1, j)` for `j` from 2, are not needed. -/
structure CounterClauses (F : List (List ℤ)) (n k : ℕ) (x : ℕ → ℤ) (s : ℕ → ℕ → ℤ) : Prop where
  start : [-x 1, s 1 1] ∈ F
  set : ∀ i, 1 ≤ i → i + 1 ≤ n - 1 → [-x (i + 1), s (i + 1) 1] ∈ F
  keepOne : ∀ i, 1 ≤ i → i + 1 ≤ n - 1 → [-s i 1, s (i + 1) 1] ∈ F
  up : ∀ i, 1 ≤ i → i + 1 ≤ n - 1 → ∀ j, 1 ≤ j → j + 1 ≤ k → [-x (i + 1), -s i j, s (i + 1) (j + 1)] ∈ F
  keep : ∀ i, 1 ≤ i → i + 1 ≤ n - 1 → ∀ j, 2 ≤ j → j ≤ k → [-s i j, s (i + 1) j] ∈ F
  full : ∀ i, 1 ≤ i → i + 1 ≤ n → [-x (i + 1), -s i k] ∈ F

theorem counterClauses {ls : List ℤ} {k : ℕ} (hk : 1 ≤ k) (hkn : k < ls.length) (top : ℕ) :
    CounterClauses (encodeSequential ls k top).clauses ls.length k (litAt ls) (counter top k) := by
  rw [encodeSequential, if_neg (by omega), if_neg (by omega)]
  have hrow : ∀ i, 1 ≤ i → i + 1 ≤ ls.length - 1 → ∀ cl ∈ sequentialRow ls k top (i + 1), cl ∈
      [[-litAt ls 1, counter top k 1 1]] ++ (upTo 2 k).map (fun j => [-counter top k 1 j]) ++
        (upTo 2 (ls.length - 1)).flatMap (sequentialRow ls k top) ++
        [[-litAt ls ls.length, -counter top k (ls.length - 1) k]] := by
    intro i h1 hi cl hcl
    simp only [List.mem_append, List.mem_flatMap, mem_upTo]
    exact .inl (.inr ⟨i + 1, ⟨by omega, hi⟩, hcl⟩)
  refine ⟨by simp, fun i h1 hi => ?_, fun i h1 hi => ?_, fun i h1 hi j hj hjk => ?_,
    fun i h1 hi j hj hjk => ?_, fun i h1 hi => ?_⟩
  · exact hrow i h1 hi _ (by simp [sequentialRow])
  · exact hrow i h1 hi _ (by simp [sequentialRow])
  · refine hrow i h1 hi _ ?_
    simp only [sequentialRow, List.mem_append, List.mem_flatMap, mem_upTo]
    exact .inl (.inr ⟨j + 1, ⟨by omega, hjk⟩, by simp⟩)
  · refine hrow i h1 hi _ ?_
    simp only [sequentialRow, List.mem_append, List.mem_flatMap, mem_upTo]
    exact .inl (.inr ⟨j, ⟨hj, hjk⟩, by simp⟩)
  · rcases Nat.lt_or_ge i (ls.length - 1) with hlt | hge
    · exact hrow i h1 (by omega) _ (by simp [sequentialRow])
    · have hlast : i + 1 = ls.length := by omega
      have hpred : i = ls.length - 1 := by omega
      rw [hlast, hpred]
      simp

/-! ## Forward and backward -/

/-- `c i` of the first `i` literals are true. -/
structure Tallies (n : ℕ) (T : ℕ → Prop) (c : ℕ → ℕ) : Prop where
  zero : c 0 = 0
  here : ∀ i, i < n → T (i + 1) → c (i + 1) = c i + 1
  skip : ∀ i, i < n → ¬T (i + 1) → c (i + 1) = c i

section Register
variable {F : List (List ℤ)} {n k : ℕ} {x : ℕ → ℤ} {s : ℕ → ℕ → ℤ} {p : PartialAssignment}
  {T : ℕ → Prop} {c : ℕ → ℕ}

theorem propagates_forward (hF : CounterClauses F n k x s) (hc : Tallies n T c)
    (hT : ∀ i, T i → Propagates F p (x i)) {i : ℕ} (h1 : 1 ≤ i) (hi : i ≤ n - 1) {j : ℕ} (hj : 1 ≤ j)
    (hjk : j ≤ k) (hle : j ≤ c i) : Propagates F p (s i j) := by
  induction i generalizing j with
  | zero => omega
  | succ i ih =>
    by_cases ht : T (i + 1)
    · have hcount := hc.here i (by omega) ht
      rcases Nat.eq_zero_or_pos i with rfl | hpos
      · rw [hc.zero] at hcount
        obtain rfl : j = 1 := by omega
        exact .implied hF.start (hT 1 ht)
      · rcases Nat.lt_or_ge j 2 with hj1 | hj2
        · obtain rfl : j = 1 := by omega
          exact .implied (hF.set i hpos hi) (hT _ ht)
        · obtain ⟨m, rfl⟩ : ∃ m, j = m + 1 := ⟨j - 1, by omega⟩
          exact .implied_both (hF.up i hpos hi m (by omega) hjk) (hT _ ht)
            (ih hpos (by omega) (by omega) (by omega) (by omega))
    · have hcount := hc.skip i (by omega) ht
      rcases Nat.eq_zero_or_pos i with rfl | hpos
      · rw [hc.zero] at hcount
        omega
      · have hbefore := ih hpos (by omega) hj hjk (by omega)
        rcases Nat.lt_or_ge j 2 with hj1 | hj2
        · obtain rfl : j = 1 := by omega
          exact .implied (hF.keepOne i hpos hi) hbefore
        · exact .implied (hF.keep i hpos hi j hj2 hjk) hbefore

/-- The place where the count passes `k`. -/
theorem Tallies.passes (hc : Tallies n T c) {m : ℕ} (hm : m ≤ n) (hk : k < c m) :
    ∃ i, i < m ∧ c i = k ∧ T (i + 1) := by
  induction m with
  | zero =>
    rw [hc.zero] at hk
    omega
  | succ m ih =>
    by_cases hlt : k < c m
    · obtain ⟨i, hi, hci, ht⟩ := ih (by omega) hlt
      exact ⟨i, by omega, hci, ht⟩
    · by_cases ht : T (m + 1)
      · have hcount := hc.here m (by omega) ht
        exact ⟨m, by omega, by omega, ht⟩
      · have hcount := hc.skip m (by omega) ht
        omega

theorem conflicts_of_passed (hk : 1 ≤ k) (hF : CounterClauses F n k x s) (hc : Tallies n T c)
    (hT : ∀ i, T i → Propagates F p (x i)) (hpass : k < c n) : Conflicts F p := by
  obtain ⟨i, hi, hci, ht⟩ := hc.passes le_rfl hpass
  have hpos : 1 ≤ i := by
    rcases Nat.eq_zero_or_pos i with rfl | hpos
    · rw [hc.zero] at hci
      omega
    · exact hpos
  exact conflicts_of_both (hF.full i hpos (by omega)) (hT _ ht)
    (propagates_forward hF hc hT hpos (by omega) hk le_rfl hci.ge)

theorem propagates_backward (hF : CounterClauses F n k x s) (hc : Tallies n T c)
    (hT : ∀ i, T i → Propagates F p (x i)) (htotal : c n = k) {d i : ℕ} (hd : i + d + 1 = n) (h1 : 1 ≤ i)
    {j : ℕ} (hlt : c i < j) (hjk : j ≤ k) : Propagates F p (-s i j) := by
  -- by induction on the number of rows after `i`
  induction d generalizing i j with
  | zero =>
    obtain rfl : n = i + 1 := by omega
    by_cases ht : T (i + 1)
    · have hcount := hc.here i (by omega) ht
      obtain rfl : j = k := by omega
      exact .implied (hF.full i h1 le_rfl) (hT _ ht)
    · have hcount := hc.skip i (by omega) ht
      omega
  | succ d ih =>
    by_cases ht : T (i + 1)
    · have hcount := hc.here i (by omega) ht
      rcases Nat.lt_or_ge j k with hj | hj
      · have hafter := ih (i := i + 1) (j := j + 1) (by omega) (by omega) (by omega) hj
        exact .not_second (hF.up i h1 (by omega) j (by omega) hj) (hT _ ht) hafter
      · obtain rfl : j = k := by omega
        exact .implied (hF.full i h1 (by omega)) (hT _ ht)
    · have hcount := hc.skip i (by omega) ht
      have hafter := ih (i := i + 1) (by omega) (by omega) (j := j) (by omega) hjk
      rcases Nat.lt_or_ge j 2 with hj1 | hj2
      · obtain rfl : j = 1 := by omega
        exact .contrapositive (hF.keepOne i h1 (by omega)) hafter
      · exact .contrapositive (hF.keep i h1 (by omega) j hj2 hjk) hafter

/-- Where forward and backward meet, the literal is made false. -/
theorem propagates_between (hk : 1 ≤ k) (hkn : k < n) (hF : CounterClauses F n k x s) (hc : Tallies n T c)
    (hT : ∀ i, T i → Propagates F p (x i)) (htotal : c n = k) {i : ℕ} (hi : i < n) (ht : ¬T (i + 1)) :
    Propagates F p (-x (i + 1)) := by
  have hskip := hc.skip i hi ht
  have hbackward : i + 1 < n → c i < k → Propagates F p (-s (i + 1) (c i + 1)) := fun hin hck =>
    propagates_backward hF hc hT htotal (d := n - (i + 1) - 1) (by omega) (by omega) (by omega) hck
  rcases Nat.eq_zero_or_pos i with rfl | hpos
  · rw [hc.zero] at hbackward
    exact .contrapositive hF.start (hbackward (by omega) (by omega))
  · rcases Nat.lt_or_ge (c i) k with hlt | hge
    · have hin : i + 1 < n := by
        by_contra hend
        obtain rfl : n = i + 1 := by omega
        omega
      rcases Nat.eq_zero_or_pos (c i) with hzero | hsome
      · rw [hzero] at hbackward
        exact .contrapositive (hF.set i hpos (by omega)) (hbackward hin (by omega))
      · have hforward : Propagates F p (s i (c i)) :=
          propagates_forward hF hc hT hpos (by omega) hsome (by omega) le_rfl
        exact .not_first (hF.up i hpos (by omega) (c i) hsome (by omega)) hforward (hbackward hin hlt)
    · have hforward : Propagates F p (s i k) :=
        propagates_forward hF hc hT hpos (by omega) hk le_rfl hge
      exact .contrapositive (b := -s i k) (hF.full i hpos (by omega)) hforward.of_neg_neg

end Register

/-! ## The bound is enforced -/

/-- What unit propagation over `F` does with a partial assignment of the literals. -/
structure Enforces (F : List (List ℤ)) (ls : List ℤ) (k : ℕ) (p : PartialAssignment) : Prop where
  rest : ls.countP p.sets = k → ∀ l ∈ ls, p.sets l = false → Propagates F p (-l)
  exceeded : k < ls.countP p.sets → Conflicts F p
  within : ls.countP p.sets ≤ k → ¬Conflicts F p

section Encodings
variable {ls : List ℤ} {k top : ℕ} {p : PartialAssignment} (hls : ∀ l ∈ ls, l ≠ 0)
  (hdistinct : (ls.map Int.natAbs).Nodup)
include hls hdistinct

theorem enforces_sequential (htop : ∀ l ∈ ls, l.natAbs ≤ top) (hk : 1 ≤ k) (hkn : k < ls.length)
    (hp : ∀ v, p v ≠ none → ∃ l ∈ ls, l.natAbs = v) :
    Enforces (encodeSequential ls k top).clauses ls k p := by
  -- the true literals are counted as those of an assignment are
  let α := p.elseFalse ls
  have hF := counterClauses hk hkn top
  have hholds : ∀ l ∈ ls, holds α l = p.sets l := fun l hl => holds_elseFalse hls hdistinct hl
  have hcount : prefixCount α ls ls.length = ls.countP p.sets := by
    rw [prefixCount_length, trueCount_elseFalse hls hdistinct]
  have hc : Tallies ls.length (fun i => 1 ≤ i ∧ i ≤ ls.length ∧ holds α (litAt ls i) = true)
      (prefixCount α ls) := by
    refine ⟨rfl, fun i hi ht => ?_, fun i hi ht => ?_⟩
    · rw [prefixCount_succ α ls hi, if_pos ht.2.2]
    · rw [prefixCount_succ α ls hi, if_neg fun hx => ht ⟨by omega, hi, hx⟩]
      rfl
  have hT : ∀ i, (1 ≤ i ∧ i ≤ ls.length ∧ holds α (litAt ls i) = true) →
      Propagates (encodeSequential ls k top).clauses p (litAt ls i) := by
    rintro i ⟨h1, hi, hx⟩
    rw [hholds _ (litAt_mem h1 hi)] at hx
    exact .given hx
  refine ⟨fun hexact l hl hfalse => ?_, fun hover => ?_, fun hwithin => ?_⟩
  · obtain ⟨i, hi, rfl⟩ := List.getElem_of_mem hl
    have hlit : litAt ls (i + 1) = ls[i] := by
      rw [litAt, Nat.add_sub_cancel, List.getD_eq_getElem _ _ hi]
    rw [← hlit]
    refine propagates_between hk hkn hF hc hT (hcount.trans hexact) hi fun ht => ?_
    rw [hlit, hholds _ hl, hfalse] at ht
    exact absurd ht.2.2 Bool.false_ne_true
  · exact conflicts_of_passed hk hF hc hT (hcount ▸ hover)
  · have htrue : trueCount α ls ≤ k := by
      rw [trueCount_elseFalse hls hdistinct]
      exact hwithin
    obtain ⟨β, hβ, hm⟩ := (means_encodeSequential hls htop hk hkn α).mpr htrue
    refine not_conflicts hm (fun v b hv => ?_) fun cl hcl => ?_
    · obtain ⟨l, hl, rfl⟩ := hp v (by rw [hv]; exact Option.some_ne_none b)
      have hbelow := htop l hl
      rw [hβ _ fun hb => absurd hb.1 (by omega)]
      exact extends_elseFalse p ls _ b hv
    · exact ((counterClause_of_mem hk hkn hcl).proper hls htop).2.1

omit hls hdistinct in
theorem countP_or_beq {q : ℤ → Bool} {l : ℤ} (hl : q l = false) :
    ls.countP (fun x => q x || x == l) = ls.countP q + ls.count l := by
  induction ls with
  | nil => rfl
  | cons x ls ih =>
    rw [List.countP_cons, List.countP_cons, List.count_cons, ih]
    by_cases hx : x = l
    · rw [hx, hl, beq_self_eq_true, Bool.or_true, if_pos rfl, if_neg Bool.false_ne_true]
      omega
    · have hbeq : (x == l) = false := beq_false_of_ne hx
      rw [hbeq, Bool.or_false, if_neg Bool.false_ne_true]
      omega

theorem enforces_pairwise (hkn : k < ls.length) : Enforces (encodePairwise ls k) ls k p := by
  have hnodup : ls.Nodup := List.Nodup.of_map _ hdistinct
  have hclause : ∀ sub : List ℤ, sub.Sublist ls → sub.length = k + 1 →
      sub.map (- ·) ∈ encodePairwise ls k := by
    intro sub hsub hlen
    rw [encodePairwise, if_neg (Nat.not_le.mpr hkn)]
    exact List.mem_map_of_mem (mem_combn.mpr ⟨hsub, hlen⟩)
  refine ⟨fun hexact l hl hfalse => ?_, fun hover => ?_, fun hwithin => ?_⟩
  · -- the true literals with `l` are a forbidden sublist
    let sub := ls.filter fun x => p.sets x || x == l
    have hlen : sub.length = k + 1 := by
      rw [← List.countP_eq_length_filter, countP_or_beq hfalse, hexact, List.count_eq_one_of_mem hnodup hl]
    refine .unit (hclause sub List.filter_sublist hlen) (List.mem_map_of_mem (a := l) ?_) ?_
    · exact List.mem_filter.mpr ⟨hl, by simp⟩
    · intro y hy hne
      obtain ⟨z, hz, rfl⟩ := List.mem_map.mp hy
      have hset := (List.mem_filter.mp hz).2
      rw [Bool.or_eq_true, beq_iff_eq] at hset
      rcases hset with hset | rfl
      · exact (Propagates.given hset).of_neg_neg
      · exact absurd rfl hne
  · have hlen : k + 1 ≤ (ls.filter p.sets).length := by
      rw [← List.countP_eq_length_filter]
      exact hover
    refine ⟨_, hclause ((ls.filter p.sets).take (k + 1))
      ((List.take_sublist _ _).trans List.filter_sublist) (List.length_take_of_le hlen), fun y hy => ?_⟩
    obtain ⟨z, hz, rfl⟩ := List.mem_map.mp hy
    exact (Propagates.given (List.mem_filter.mp (List.mem_of_mem_take hz)).2).of_neg_neg
  · have hm : models (p.elseFalse ls) (encodePairwise ls k) = true := by
      rw [encodePairwise_models hls, trueCount_elseFalse hls hdistinct]
      exact hwithin
    refine not_conflicts hm (extends_elseFalse p ls) fun cl hcl h0 => ?_
    exact hls _ (encodePairwise_lits hcl h0) rfl

/-- Unit propagation enforces the bound on both encodings: with `k` literals true every other becomes
false, with more there is a conflict, and with at most `k` there is none. -/
theorem propagation_enforces_bound (htop : ∀ l ∈ ls, l.natAbs ≤ top) (hk : 1 ≤ k) (hkn : k < ls.length)
    (hp : ∀ v, p v ≠ none → ∃ l ∈ ls, l.natAbs = v) :
    Enforces (encodeSequential ls k top).clauses ls k p ∧ Enforces (encodePairwise ls k) ls k p :=
  ⟨enforces_sequential hls hdistinct htop hk hkn hp, enforces_pairwise hls hdistinct hkn⟩

end Encodings

/-- The second of three literals is true, at most one may be. -/
theorem propagation_enforces_middle :
    Enforces (encodeSequential [1, -2, 3] 1 3).clauses [1, -2, 3] 1
      (fun v => if v = 2 then some false else none) ∧
    Enforces (encodePairwise [1, -2, 3] 1) [1, -2, 3] 1 (fun v => if v = 2 then some false else none) :=
  propagation_enforces_bound (by decide) (by decide) (by decide) le_rfl (by decide) fun v hv => by
    by_cases h2 : v = 2
    · exact ⟨-2, by decide, by omega⟩
    · rw [if_neg h2] at hv
      exact absurd rfl hv

end Zusat
