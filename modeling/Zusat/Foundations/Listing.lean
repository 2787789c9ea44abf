import Mathlib.Data.Fintype.BigOperators
import Mathlib.Data.Fintype.Vector
import Mathlib.Tactic.Common

/-! # Listing the images of solutions

A search that is told what has been listed already either finds a solution with a new image or shows
that there is none. `Listing` is what such a loop keeps: no image twice, and none without a solution.
-/

namespace Foundations
set_option autoImplicit false

section Listing
variable {α β : Type}

/-- Images of solutions, each at most once. -/
structure Listing (solution : α → Prop) (image : α → β) (listed : List β) : Prop where
  nodup : listed.Nodup
  sound : ∀ b ∈ listed, ∃ a, solution a ∧ image a = b

/-- The solutions whose image is still to be listed. -/
def Remaining (solution : α → Prop) (image : α → β) (listed : List β) (a : α) : Prop :=
  solution a ∧ image a ∉ listed

variable {solution : α → Prop} {image : α → β} {listed : List β}

theorem listing_nil : Listing solution image [] := ⟨List.nodup_nil, fun _ h => nomatch h⟩

theorem Listing.snoc (h : Listing solution image listed) {a : α}
    (ha : Remaining solution image listed a) : Listing solution image (listed ++ [image a]) where
  nodup := by
    refine List.nodup_append.mpr ⟨h.nodup, List.nodup_singleton _, fun b hb c hc hbc => ha.2 ?_⟩
    rwa [← List.mem_singleton.mp hc, ← hbc]
  sound := by
    intro b hb
    rcases List.mem_append.mp hb with hb | hb
    · exact h.sound b hb
    · exact ⟨a, ha.1, (List.mem_singleton.mp hb).symm⟩

/-- A listing with nothing remaining has every image. -/
theorem mem_of_none_remaining (h : ∀ a, ¬Remaining solution image listed a) {a : α}
    (ha : solution a) : image a ∈ listed := by
  by_contra hnew
  exact h a ⟨ha, hnew⟩

end Listing

/-- There are at most `2 ^ n` distinct bit strings of length `n`. -/
theorem length_le_two_pow {found : List (List Bool)} {n : ℕ} (hnodup : found.Nodup)
    (hlen : ∀ b ∈ found, b.length = n) : found.length ≤ 2 ^ n := by
  let vector : { b // b ∈ found } → List.Vector Bool n := fun b => ⟨b.1, hlen b.1 b.2⟩
  have hinj : Function.Injective vector := by
    intro b c hbc
    exact Subtype.ext (congrArg List.Vector.toList hbc)
  have hle := (hnodup.attach.map hinj).length_le_card
  rwa [card_vector, Fintype.card_bool, List.length_map, List.length_attach] at hle

end Foundations
