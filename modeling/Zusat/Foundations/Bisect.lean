import Mathlib.Data.List.Sort
import Mathlib.Tactic.Common

/-! # Bisection

`bisect` looks for the end of the initial stretch of indices that satisfy a test. -/

namespace Foundations
set_option autoImplicit false

/-- Bisection between `lo` and `hi`; `fuel` bounds the number of halvings. -/
def bisect (test : ℕ → Bool) : ℕ → ℕ → ℕ → ℕ
  | 0, lo, _ => lo
  | fuel + 1, lo, hi =>
    if hi ≤ lo then lo
    else if test ((lo + hi) / 2) then bisect test fuel ((lo + hi) / 2 + 1) hi
    else bisect test fuel lo ((lo + hi) / 2)

/-- For a test that holds on an initial stretch only, bisection finds its end. -/
theorem bisect_spec {test : ℕ → Bool} (hmono : ∀ i j, i ≤ j → test j = true → test i = true)
    {fuel lo hi : ℕ} (hle : lo ≤ hi) (hfuel : hi - lo ≤ fuel) (hlo : ∀ i < lo, test i = true)
    (hhi : ∀ i, hi ≤ i → test i = false) :
    (∀ i < bisect test fuel lo hi, test i = true) ∧
      ∀ i, bisect test fuel lo hi ≤ i → test i = false := by
  induction fuel generalizing lo hi with
  | zero =>
    obtain rfl : lo = hi := by omega
    exact ⟨hlo, hhi⟩
  | succ fuel ih =>
    rw [bisect]
    by_cases hend : hi ≤ lo
    · rw [if_pos hend]
      exact ⟨hlo, fun i hi' => hhi i (by omega)⟩
    · rw [if_neg hend]
      have hmid : lo ≤ (lo + hi) / 2 ∧ (lo + hi) / 2 < hi := by omega
      cases ht : test ((lo + hi) / 2) with
      | true =>
        rw [if_pos rfl]
        exact ih (by omega) (by omega)
          (fun i hi' => hmono i ((lo + hi) / 2) (by omega) ht) hhi
      | false =>
        rw [if_neg Bool.false_ne_true]
        refine ih (by omega) (by omega) hlo (fun i hi' => ?_)
        by_contra hc
        rw [Bool.not_eq_false] at hc
        rw [hmono _ i hi' hc] at ht
        cases ht

end Foundations
