import Mathlib.Order.Basic
import Mathlib.Tactic.Common

/-! # Finite runs of a machine that answers every input

`step s i` answers input `i` in state `s` and gives the next state. `run` feeds a list of inputs,
`Every` says that each step of a run meets a condition on its state, input and answer, and
`run_invariant` is the invariant rule for such runs. -/

namespace Foundations
set_option autoImplicit false

variable {σ ι ρ : Type} (step : σ → ι → ρ × σ)

/-- The state after a list of inputs. -/
def run (s : σ) : List ι → σ
  | [] => s
  | i :: is => run (step s i).2 is

/-- Every step of the run meets `P` (its state before, its input, its answer). -/
def Every (P : σ → ι → ρ → Prop) (s : σ) : List ι → Prop
  | [] => True
  | i :: is => P s i (step s i).1 ∧ Every P (step s i).2 is

theorem run_cons (s : σ) (i : ι) (is : List ι) :
    run step s (i :: is) = run step (step s i).2 is := rfl

theorem run_append (s : σ) (is js : List ι) :
    run step s (is ++ js) = run step (run step s is) js := by
  induction is generalizing s with
  | nil => rfl
  | cons i is ih => exact ih (step s i).2

theorem run_snoc (s : σ) (is : List ι) (i : ι) :
    run step s (is ++ [i]) = (step (run step s is) i).2 := by
  rw [run_append]
  rfl

/-- A condition on the inputs alone is met by every step of a run over such inputs. -/
theorem every_of_forall {P : σ → ι → ρ → Prop} {is : List ι}
    (h : ∀ i ∈ is, ∀ s r, P s i r) (s : σ) : Every step P s is := by
  induction is generalizing s with
  | nil => trivial
  | cons i is ih =>
    exact ⟨h i (List.mem_cons_self ..) _ _, ih (fun j hj => h j (List.mem_cons_of_mem i hj)) _⟩

/-- The invariant rule. -/
theorem run_invariant {P : σ → ι → ρ → Prop} {I : σ → Prop}
    (hstep : ∀ s i, I s → P s i (step s i).1 → I (step s i).2) {s : σ} (hs : I s)
    {is : List ι} (his : Every step P s is) : I (run step s is) := by
  induction is generalizing s with
  | nil => exact hs
  | cons i is ih => exact ih (hstep s i hs his.1) his.2

end Foundations
