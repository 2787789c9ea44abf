import Zusat.Cardinality.Encoders
import Zusat.Cardinality.Shape
import Zusat.Model.Arithmetic

/-! # No integer operation of the encoders overflows

A list of literals over distinct variables has at most `zusatMaxVar` of them, so the products that are
formed in doubles are exact; and the counter is only built when its top is at most `zusatMaxVar`, which
bounds every product and every index in it. So the programs in R's arithmetic are those of
`Model.Encoders`. -/

namespace Zusat
open Foundations
set_option autoImplicit false

theorem Whole.arith_fits {f : ℤ → ℤ → ℤ} {a b : Whole} (h : (f a.value b.value).natAbs ≤ integerMax) :
    ∃ w, arith f a b = some w ∧ w.value = f a.value b.value := by
  have hexact : (f a.value b.value).natAbs ≤ 2 ^ 53 := le_trans h (by decide)
  cases a with
  | int x =>
    cases b with
    | int y => exact ⟨_, if_pos h, rfl⟩
    | dbl y => exact ⟨_, if_pos hexact, rfl⟩
  | dbl x => exact ⟨_, if_pos hexact, rfl⟩

theorem Whole.arith_int {f : ℤ → ℤ → ℤ} {a b : ℤ} (h : (f a b).natAbs ≤ integerMax) :
    arith f (.int a) (.int b) = some (.int (f a b)) := if_pos h

namespace Machine

theorem lengthOf_eq {α : Type} {xs : List α} (h : xs.length ≤ integerMax) :
    lengthOf xs = .int xs.length := if_pos h

/-! ## Building a list of clauses -/

/-- The program appends these clauses, if the list stays one R indexes by integers. -/
def Adds (m : List (List ℤ) → Option (List (List ℤ))) (cls : List (List ℤ)) : Prop :=
  ∀ acc, acc.length + cls.length ≤ integerMax → m acc = some (acc ++ cls)

theorem adds_add (cl : List ℤ) : Adds (fun acc => add acc cl) [cl] := by
  intro acc hlen
  rw [List.length_singleton] at hlen
  obtain ⟨w, hw, -⟩ : ∃ w, (Whole.int acc.length).plus (.int 1) = some w ∧ _ :=
    Whole.arith_fits (f := (· + ·)) (a := .int acc.length) (b := .int 1) (by
      change ((acc.length : ℤ) + 1).natAbs ≤ integerMax
      omega)
  change add acc cl = _
  rw [add, lengthOf_eq (by omega), hw]
  rfl

theorem Adds.bind {m m' : List (List ℤ) → Option (List (List ℤ))} {xs ys : List (List ℤ)}
    (hm : Adds m xs) (hm' : Adds m' ys) : Adds (fun acc => m acc >>= m') (xs ++ ys) := by
  intro acc hlen
  rw [List.length_append] at hlen
  change m acc >>= m' = _
  rw [hm acc (by omega), ← List.append_assoc]
  exact hm' _ (by rw [List.length_append]; omega)

theorem adds_foldlM {m : List (List ℤ) → ℕ → Option (List (List ℤ))} {f : ℕ → List (List ℤ)}
    {is : List ℕ} (h : ∀ i ∈ is, Adds (fun acc => m acc i) (f i)) :
    Adds (fun acc => is.foldlM m acc) (is.flatMap f) := by
  induction is with
  | nil =>
    intro acc _
    rw [List.flatMap_nil, List.append_nil]
    rfl
  | cons i is ih =>
    have hrest := (h i (List.mem_cons_self ..)).bind
      (ih fun j hj => h j (List.mem_cons_of_mem i hj))
    intro acc hlen
    rw [List.flatMap_cons] at hlen ⊢
    exact hrest acc hlen

/-! ## The counter -/

theorem s_eq {top k a c : ℕ} {i j : Whole} (hi : i.value = a) (hj : j.value = c) (ha : 1 ≤ a)
    (hk : 1 ≤ k) (hle : top + (a - 1) * k + c ≤ integerMax) :
    ∃ w, s top k i j = some w ∧ w.value = counter top k a c := by
  have hrow : a - 1 ≤ (a - 1) * k := Nat.le_mul_of_pos_right _ hk
  obtain ⟨before, hbefore, vbefore⟩ := Whole.arith_fits (f := (· - ·)) (a := i) (b := .int 1) (by
    rw [hi]
    change ((a : ℤ) - 1).natAbs ≤ integerMax
    omega)
  have hb : before.value = ((a - 1 : ℕ) : ℤ) := by
    rw [vbefore, hi]
    change (a : ℤ) - 1 = _
    omega
  obtain ⟨rows, hrows, vrows⟩ := Whole.arith_fits (f := (· * ·)) (a := before) (b := .int k) (by
    rw [hb]
    change (((a - 1 : ℕ) : ℤ) * (k : ℤ)).natAbs ≤ integerMax
    rw [← Int.natCast_mul, Int.natAbs_natCast]
    omega)
  have hr : rows.value = (((a - 1) * k : ℕ) : ℤ) := by
    rw [vrows, hb]
    exact (Int.natCast_mul _ _).symm
  obtain ⟨start, hstart, vstart⟩ := Whole.arith_fits (f := (· + ·)) (a := .int top) (b := rows) (by
    rw [hr]
    change ((top : ℤ) + (((a - 1) * k : ℕ) : ℤ)).natAbs ≤ integerMax
    omega)
  obtain ⟨w, hw, vw⟩ := Whole.arith_fits (f := (· + ·)) (a := start) (b := j) (by
    rw [vstart, hr, hj]
    change ((top : ℤ) + (((a - 1) * k : ℕ) : ℤ) + (c : ℤ)).natAbs ≤ integerMax
    omega)
  refine ⟨w, ?_, ?_⟩
  · rw [s]
    change (Whole.arith _ _ _ >>= _) = _
    rw [hbefore]
    change (Whole.arith _ _ _ >>= _) = _
    rw [hrows]
    change (Whole.arith _ _ _ >>= _) = _
    rw [hstart]
    exact hw
  · rw [vw, vstart, hr, hj, counter]
    change (top : ℤ) + (((a - 1) * k : ℕ) : ℤ) + (c : ℤ) = _
    omega

/-- `i - 1L` for an index. -/
theorem minus_one {i : ℕ} (h1 : 1 ≤ i) (hi : i ≤ integerMax) :
    (Whole.int i).minus (.int 1) = some (.int ((i - 1 : ℕ) : ℤ)) := by
  have hcast : (i : ℤ) - 1 = ((i - 1 : ℕ) : ℤ) := by omega
  have hfits : ((i : ℤ) - 1).natAbs ≤ integerMax := by omega
  rw [Whole.minus, Whole.arith_int hfits, hcast]

section Counter
variable {ls : List ℤ} {k top : ℕ} (hk : 1 ≤ k) (hmax : top + (ls.length - 1) * k ≤ zusatMaxVar)
include hk hmax

theorem s_register {i j : Whole} {a c : ℕ} (hi : i.value = a) (hj : j.value = c) (h1 : 1 ≤ a)
    (ha : a ≤ ls.length - 1) (hc : c ≤ k) : ∃ w, s top k i j = some w ∧ w.value = counter top k a c := by
  have hlt := counter_lt ha h1 hc
  have hrange : zusatMaxVar ≤ integerMax := by decide
  exact s_eq hi hj h1 hk (by omega)

theorem index_le {i : ℕ} (hi : i ≤ ls.length - 1) : i ≤ integerMax := by
  have hrow : ls.length - 1 ≤ (ls.length - 1) * k := Nat.le_mul_of_pos_right _ hk
  have hrange : zusatMaxVar ≤ integerMax := by decide
  omega

theorem adds_sequentialFirst (hkn : k < ls.length) {j : ℕ} (hjk : j ≤ k) :
    Adds (fun acc => sequentialFirst k top acc j) [[-counter top k 1 j]] := by
  obtain ⟨w, h, v⟩ := s_register hk hmax (i := .dbl 1) (j := .int (j : ℤ)) (a := 1) rfl rfl le_rfl
    (by omega) hjk
  intro acc hlen
  change sequentialFirst k top acc j = _
  rw [sequentialFirst]
  simp only [h, v, Option.bind_eq_bind, Option.bind_some]
  exact adds_add _ acc hlen

theorem adds_sequentialStep {i : ℕ} (h2 : 2 ≤ i) (hi : i ≤ ls.length - 1) {j : ℕ} (hj : 2 ≤ j)
    (hjk : j ≤ k) (hkn : k < ls.length) : Adds (fun acc => sequentialStep ls k top i acc j)
      [[-litAt ls i, -counter top k (i - 1) (j - 1), counter top k i j],
       [-counter top k (i - 1) j, counter top k i j]] := by
  have hrow := minus_one (i := i) (by omega) (index_le hk hmax hi)
  have hj' : j ≤ ls.length - 1 := by omega
  have hlow := minus_one (i := j) (by omega) (index_le hk hmax hj')
  obtain ⟨w₁, h₁, v₁⟩ := s_register hk hmax (i := .int ((i - 1 : ℕ) : ℤ))
    (j := .int ((j - 1 : ℕ) : ℤ)) rfl rfl (by omega) (by omega) (by omega)
  obtain ⟨w₂, h₂, v₂⟩ := s_register hk hmax (i := .int (i : ℤ)) (j := .int (j : ℤ)) rfl rfl (by omega)
    hi hjk
  obtain ⟨w₃, h₃, v₃⟩ := s_register hk hmax (i := .int ((i - 1 : ℕ) : ℤ)) (j := .int (j : ℤ)) rfl rfl
    (by omega) (by omega) hjk
  intro acc hlen
  change sequentialStep ls k top i acc j = _
  rw [sequentialStep]
  simp only [hrow, hlow, h₁, h₂, h₃, v₁, v₂, v₃, Option.bind_eq_bind, Option.bind_some]
  exact ((adds_add _).bind (adds_add _)) acc hlen

theorem adds_sequentialRow {i : ℕ} (h2 : 2 ≤ i) (hi : i ≤ ls.length - 1) (hkn : k < ls.length) :
    Adds (fun acc => sequentialRow ls k top acc i) (Zusat.sequentialRow ls k top i) := by
  have hrow := minus_one (i := i) (by omega) (index_le hk hmax hi)
  obtain ⟨w₁, h₁, v₁⟩ := s_register hk hmax (i := .int (i : ℤ)) (j := .dbl 1) rfl rfl (by omega) hi hk
  obtain ⟨w₂, h₂, v₂⟩ := s_register hk hmax (i := .int ((i - 1 : ℕ) : ℤ)) (j := .dbl 1) rfl rfl
    (by omega) (by omega) hk
  obtain ⟨w₃, h₃, v₃⟩ := s_register hk hmax (i := .int ((i - 1 : ℕ) : ℤ)) (j := .int (k : ℤ)) rfl rfl
    (by omega) (by omega) le_rfl
  have hsteps := adds_foldlM fun j (hj : j ∈ upTo 2 k) =>
    adds_sequentialStep hk hmax h2 hi (mem_upTo.mp hj).1 (mem_upTo.mp hj).2 hkn
  have hall := (adds_add [-litAt ls i, counter top k i 1]).bind
    ((adds_add [-counter top k (i - 1) 1, counter top k i 1]).bind
      (hsteps.bind (adds_add [-litAt ls i, -counter top k (i - 1) k])))
  rw [Zusat.sequentialRow, List.append_assoc]
  intro acc hlen
  change sequentialRow ls k top acc i = _
  rw [sequentialRow]
  simp only [hrow, h₁, h₂, h₃, v₁, v₂, v₃, Option.bind_eq_bind, Option.bind_some]
  exact hall acc hlen

/-- The counter is short enough for integer indices. -/
theorem length_le (hkn : k < ls.length) :
    (Zusat.encodeSequential ls k top).clauses.length ≤ integerMax := by
  have hcount := length_encodeSequential hk hkn top
  have hexpand : 2 * ls.length * k = 2 * ((ls.length - 1) * k) + 2 * k := by
    obtain ⟨m, hm⟩ : ∃ m, ls.length = m + 1 := ⟨ls.length - 1, by omega⟩
    rw [hm, Nat.add_sub_cancel]
    ring
  have hrow : ls.length - 1 ≤ (ls.length - 1) * k := Nat.le_mul_of_pos_right _ hk
  have hrange : 3 * zusatMaxVar + 1 ≤ integerMax := by decide
  omega

theorem encodeSequential_eq (hkn : k < ls.length) : encodeSequential ls k top =
    some ⟨(Zusat.encodeSequential ls k top).clauses, .int (Zusat.encodeSequential ls k top).top⟩ := by
  have hlen := length_le hk hmax hkn
  have hrange : zusatMaxVar + 1 ≤ integerMax := by decide
  have hrowle : ls.length - 1 ≤ (ls.length - 1) * k := Nat.le_mul_of_pos_right _ hk
  have hn : lengthOf ls = .int ls.length := lengthOf_eq (by omega)
  have hrows := minus_one (i := ls.length) (by omega) (by omega)
  have hprod : (Whole.int ((ls.length - 1 : ℕ) : ℤ)).times (.int k) =
      some (.int (((ls.length - 1) * k : ℕ) : ℤ)) := by
    have hfits : (((ls.length - 1 : ℕ) : ℤ) * (k : ℤ)).natAbs ≤ integerMax := by
      rw [← Int.natCast_mul, Int.natAbs_natCast]
      omega
    rw [Whole.times, Whole.arith_int hfits, Int.natCast_mul]
  have htop : (Whole.int top).plus (.int (((ls.length - 1) * k : ℕ) : ℤ)) =
      some (.int ((top + (ls.length - 1) * k : ℕ) : ℤ)) := by
    have hfits : ((top : ℤ) + (((ls.length - 1) * k : ℕ) : ℤ)).natAbs ≤ integerMax := by omega
    rw [Whole.plus, Whole.arith_int hfits, Int.natCast_add]
  obtain ⟨w₁, h₁, v₁⟩ := s_register hk hmax (i := .dbl 1) (j := .dbl 1) (a := 1) (c := 1) rfl rfl le_rfl
    (by omega) hk
  obtain ⟨w₂, h₂, v₂⟩ := s_register hk hmax (i := .int ((ls.length - 1 : ℕ) : ℤ)) (j := .int (k : ℤ))
    rfl rfl (by omega) le_rfl le_rfl
  have hfirst := adds_foldlM fun j (hj : j ∈ upTo 2 k) =>
    adds_sequentialFirst hk hmax hkn (mem_upTo.mp hj).2
  have hloop := adds_foldlM fun i (hi : i ∈ upTo 2 (ls.length - 1)) =>
    adds_sequentialRow hk hmax (mem_upTo.mp hi).1 (mem_upTo.mp hi).2 hkn
  have hall := (adds_add [-litAt ls 1, counter top k 1 1]).bind (hfirst.bind
    (hloop.bind (adds_add [-litAt ls ls.length, -counter top k (ls.length - 1) k])))
  have hmap : (upTo 2 k).flatMap (fun j => [[-counter top k 1 j]]) =
      (upTo 2 k).map fun j => [-counter top k 1 j] := (List.map_eq_flatMap ..).symm
  rw [hmap, ← List.append_assoc, ← List.append_assoc] at hall
  rw [Zusat.encodeSequential, if_neg (by omega), if_neg (by omega)] at hlen ⊢
  have hrun := hall [] (by rw [List.length_nil, Nat.zero_add]; exact hlen)
  rw [encodeSequential, if_neg (by omega), if_neg (by omega)]
  simp only [hn, hrows, hprod, htop, h₁, h₂, v₁, v₂, Option.bind_eq_bind, Option.bind_some]
  have hbuilt := congrArg (fun built : Option (List (List ℤ)) => built.bind fun clauses =>
    some (Built.mk clauses (.int ((top + (ls.length - 1) * k : ℕ) : ℤ)))) hrun
  simpa only [Option.bind_eq_bind, Option.bind_assoc, Option.bind_some, List.nil_append,
    Option.pure_def] using hbuilt

end Counter

/-! ## The encoders -/

/-- The result of an encoder, its top as an R integer. -/
def built (enc : Encoded) : Built := ⟨enc.clauses, .int enc.top⟩

section Encoders
variable {ls : List ℤ} (hn : ls.length ≤ zusatMaxVar)
include hn

theorem plus_one {k : ℕ} (hkn : k < ls.length) :
    (Whole.int k).plus (.int 1) = some (.int ((k + 1 : ℕ) : ℤ)) := by
  have hrange : zusatMaxVar ≤ integerMax := by decide
  have hfits : ((k : ℤ) + 1).natAbs ≤ integerMax := by omega
  rw [Whole.plus, Whole.arith_int hfits, Int.natCast_add]
  rfl

theorem encodePairwise_eq {k : ℕ} (hkn : k < ls.length) :
    encodePairwise ls k = some (Zusat.encodePairwise ls k) := by
  rw [encodePairwise, if_neg (by omega), plus_one hn hkn, Zusat.encodePairwise, if_neg (by omega)]
  rfl

theorem chooseEncoding_eq {k : ℕ} (hkn : k < ls.length) (e : Encoding) :
    chooseEncoding e ls.length k = some (Zusat.chooseEncoding e ls.length k) := by
  rw [chooseEncoding, Zusat.chooseEncoding]
  split_ifs with h₁ h₂ h₃
  · rfl
  · rfl
  · rw [plus_one hn hkn]
    change some (if ls.length.choose (k + 1) ≤ 64 then Encoding.pairwise else .sequential) = _
    rw [if_pos h₃]
  · rw [plus_one hn hkn]
    change some (if ls.length.choose (k + 1) ≤ 64 then Encoding.pairwise else .sequential) = _
    rw [if_neg h₃]

/-- The product and the sum in doubles are exact. -/
theorem needed_eq {k top : ℕ} (hkn : k < ls.length) (htop : top ≤ zusatMaxVar) :
    needed ls k top = some (.dbl ((top + (ls.length - 1) * k : ℕ) : ℤ)) := by
  have hrange : zusatMaxVar ≤ integerMax := by decide
  have hprod : (ls.length - 1) * k ≤ zusatMaxVar * zusatMaxVar := Nat.mul_le_mul (by omega) (by omega)
  have hexact : zusatMaxVar + zusatMaxVar * zusatMaxVar ≤ 2 ^ 53 := by decide
  have hrows : (lengthOf ls).minus (.dbl 1) = some (.dbl ((ls.length - 1 : ℕ) : ℤ)) := by
    have hcast : (ls.length : ℤ) - 1 = ((ls.length - 1 : ℕ) : ℤ) := by omega
    rw [lengthOf_eq (by omega), Whole.minus, ← hcast]
    exact if_pos (show ((ls.length : ℤ) - 1).natAbs ≤ 2 ^ 53 by omega)
  have htimes : (Whole.dbl ((ls.length - 1 : ℕ) : ℤ)).times (.int k) =
      some (.dbl (((ls.length - 1) * k : ℕ) : ℤ)) := by
    rw [Whole.times, Int.natCast_mul]
    refine if_pos (show (((ls.length - 1 : ℕ) : ℤ) * (k : ℤ)).natAbs ≤ 2 ^ 53 from ?_)
    rw [← Int.natCast_mul, Int.natAbs_natCast]
    omega
  have hplus : (Whole.dbl top).plus (.dbl (((ls.length - 1) * k : ℕ) : ℤ)) =
      some (.dbl ((top + (ls.length - 1) * k : ℕ) : ℤ)) := by
    rw [Whole.plus, Int.natCast_add]
    exact if_pos (show ((top : ℤ) + (((ls.length - 1) * k : ℕ) : ℤ)).natAbs ≤ 2 ^ 53 by omega)
  rw [needed]
  simp only [hrows, htimes, hplus, Option.bind_eq_bind, Option.bind_some]

theorem encodeAtMost_eq {k top : ℕ} (htop : top ≤ zusatMaxVar) (e : Encoding) :
    encodeAtMost ls k e top = some ((Zusat.encodeAtMost ls k e top).map built) := by
  rw [encodeAtMost, Zusat.encodeAtMost]
  by_cases hkn : k ≥ ls.length
  · rw [if_pos hkn, if_pos hkn]
    rfl
  · rw [if_neg hkn, if_neg hkn]
    by_cases hk0 : k = 0
    · rw [if_pos hk0, if_pos hk0]
      rfl
    · rw [if_neg hk0, if_neg hk0, chooseEncoding_eq hn (by omega)]
      simp only [Option.bind_eq_bind, Option.bind_some]
      by_cases hpair : Zusat.chooseEncoding e ls.length k = .pairwise
      · rw [if_pos hpair, if_pos hpair, encodePairwise_eq hn (by omega)]
        rfl
      · rw [if_neg hpair, if_neg hpair, needed_eq hn (by omega) htop, Option.bind_some]
        by_cases hmax : top + (ls.length - 1) * k > zusatMaxVar
        · have hcast : ((top + (ls.length - 1) * k : ℕ) : ℤ) > zusatMaxVar := by omega
          rw [if_pos hmax]
          change (if ((top + (ls.length - 1) * k : ℕ) : ℤ) > zusatMaxVar then _ else _) = _
          rw [if_pos hcast]
          rfl
        · have hcast : ¬((top + (ls.length - 1) * k : ℕ) : ℤ) > zusatMaxVar := by omega
          rw [if_neg hmax]
          change (if ((top + (ls.length - 1) * k : ℕ) : ℤ) > zusatMaxVar then _ else _) = _
          rw [if_neg hcast, encodeSequential_eq (by omega) (by omega) (by omega)]
          rfl

theorem encodeAtLeast_eq {k top : ℕ} (htop : top ≤ zusatMaxVar) (e : Encoding) :
    encodeAtLeast ls k e top = some ((Zusat.encodeAtLeast ls k e top).map built) := by
  rw [encodeAtLeast, Zusat.encodeAtLeast]
  by_cases hk0 : k = 0
  · rw [if_pos hk0, if_pos hk0]
    rfl
  · rw [if_neg hk0, if_neg hk0]
    by_cases hkn : k > ls.length
    · rw [if_pos hkn, if_pos hkn]
      rfl
    · have hrange : zusatMaxVar ≤ integerMax := by decide
      have hcast : (ls.length : ℤ) - (k : ℤ) = ((ls.length - k : ℕ) : ℤ) := by omega
      have hfits : ((ls.length : ℤ) - (k : ℤ)).natAbs ≤ integerMax := by omega
      rw [if_neg hkn, if_neg hkn, lengthOf_eq (by omega), Whole.minus, Whole.arith_int hfits, hcast]
      exact encodeAtMost_eq (by rw [List.length_map]; exact hn) htop e

theorem encodeExactly_eq {k top : ℕ} (htop : top ≤ zusatMaxVar) (hls : ∀ l ∈ ls, l ≠ 0)
    (hfloor : ∀ l ∈ ls, l.natAbs ≤ top) (e : Encoding) :
    encodeExactly ls k e top = some ((Zusat.encodeExactly ls k e top).map built) := by
  rw [encodeExactly, encodeAtLeast_eq hn htop, Zusat.encodeExactly]
  cases hlower : Zusat.encodeAtLeast ls k e top with
  | error err => rfl
  | ok lower =>
    -- the second half starts at the first's top, which is a variable too
    have hlow : lower.top ≤ zusatMaxVar := by
      have hspec := (encodeAtLeast_spec hls hfloor hlower).top_le
      omega
    have hupper := encodeAtMost_eq hn (k := k) hlow e
    change (encodeAtMost ls k e (lower.top : ℤ).toNat >>= _) = some (Except.map built
      ((Zusat.encodeAtMost ls k e lower.top).bind fun upper =>
        .ok ⟨lower.clauses ++ upper.clauses, upper.top⟩))
    rw [Int.toNat_natCast, hupper]
    cases Zusat.encodeAtMost ls k e lower.top <;> rfl

theorem encode_eq (b : Session.Bound) {k top : ℕ} (htop : top ≤ zusatMaxVar) (hls : ∀ l ∈ ls, l ≠ 0)
    (hfloor : ∀ l ∈ ls, l.natAbs ≤ top) (e : Encoding) :
    encode b ls k e top = some ((b.encode ls k e top).map built) := by
  cases b with
  | atMost => exact encodeAtMost_eq hn htop e
  | atLeast => exact encodeAtLeast_eq hn htop e
  | exactly => exact encodeExactly_eq hn htop hls hfloor e

end Encoders

end Machine
end Zusat
