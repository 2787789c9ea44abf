import Zusat.Foundations.Cnf

/-! # Redundant clauses

A clause is redundant in a formula when a model of the formula that falsifies it can be changed into a
model of both by making the literals of a witness true. `Blocked` is the syntactic case of one literal.

`Completes A F G`: every model of `F` becomes a model of `G` by changing variables of `A` only. This is what
a derivation keeps that adds implied clauses, adds redundant clauses and drops clauses. -/

namespace Foundations
set_option autoImplicit false

/-- Make a literal true. -/
def makeTrue (α : Assignment) (l : ℤ) : Assignment := Function.update α l.natAbs (decide (0 < l))

/-- Make the literals of a list true, the last ones last. -/
def makeAll (α : Assignment) (w : List ℤ) : Assignment := w.foldl makeTrue α

section MakeTrue
variable {α : Assignment} {l m : ℤ}

theorem holds_makeTrue (hl : l ≠ 0) : holds (makeTrue α l) l = true := by
  rw [holds, makeTrue, Function.update_self]
  by_cases hneg : l < 0
  · rw [if_pos hneg, decide_eq_false (by omega), Bool.not_false]
  · rw [if_neg hneg, decide_eq_true (by omega)]

theorem holds_makeTrue_of_ne (hm : m ≠ -l) (h : holds α m = true) : holds (makeTrue α l) m = true := by
  by_cases habs : m.natAbs = l.natAbs
  · obtain rfl | hneg := Int.natAbs_eq_natAbs_iff.mp habs
    · exact holds_makeTrue (by omega)
    · exact absurd hneg hm
  · rw [makeTrue, holds_congr (Function.update_of_ne habs ..)]
    exact h

/-- A clause without the negation stays true. -/
theorem satisfies_makeTrue {cl : List ℤ} (hcl : -l ∉ cl) (h : satisfies α cl = true) :
    satisfies (makeTrue α l) cl = true := by
  obtain ⟨m, hm, hmt⟩ := satisfies_iff.mp h
  exact satisfies_iff.mpr ⟨m, hm, holds_makeTrue_of_ne (fun heq => hcl (heq ▸ hm)) hmt⟩

theorem makeTrue_agreeOff {A : ℕ → Prop} (hl : A l.natAbs) : AgreeOff A α (makeTrue α l) := by
  intro v hv
  apply Function.update_of_ne
  rintro rfl
  exact hv hl

end MakeTrue

/-! ## Redundancy -/

/-- A model of `F` in which `C` is false becomes a model of both by making the witness true. -/
def Redundant (F : List (List ℤ)) (C w : List ℤ) : Prop :=
  ∀ α, models α F = true → satisfies α C = false → models (makeAll α w) (C :: F) = true

/-- Every clause of `F` with the negation of `l` clashes with `C` in another literal too. -/
structure Blocked (F : List (List ℤ)) (C : List ℤ) (l : ℤ) : Prop where
  mem : l ∈ C
  clash : ∀ D ∈ F, -l ∈ D → ∃ m ∈ D, m ≠ -l ∧ -m ∈ C

theorem Blocked.redundant {F : List (List ℤ)} {C : List ℤ} {l : ℤ} (h : Blocked F C l)
    (hF : ∀ D ∈ F, -l ∈ D → (0 : ℤ) ∉ D) (hl : l ≠ 0) : Redundant F C [l] := by
  intro α hα hC
  rw [models_iff]
  intro D hD
  rcases List.mem_cons.mp hD with rfl | hD
  · exact satisfies_iff.mpr ⟨l, h.mem, holds_makeTrue hl⟩
  · by_cases hmem : -l ∈ D
    · -- the other clash is true in `α`, because `C` is false there
      obtain ⟨m, hm, hne, hmC⟩ := h.clash D hD hmem
      have hm0 : m ≠ 0 := fun h0 => hF D hD hmem (h0 ▸ hm)
      have hfalse : holds α (-m) = false := by
        cases hh : holds α (-m) with
        | false => rfl
        | true => rw [satisfies_iff.mpr ⟨-m, hmC, hh⟩] at hC; cases hC
      rw [holds_neg hm0, Bool.not_eq_false'] at hfalse
      exact satisfies_iff.mpr ⟨m, hm, holds_makeTrue_of_ne hne hfalse⟩
    · exact satisfies_makeTrue hmem (models_iff.mp hα D hD)

/-! ## Derivations -/

/-- Every model of `F` becomes a model of `G` by changing variables of `A` only. -/
def Completes (A : ℕ → Prop) (F G : List (List ℤ)) : Prop :=
  ∀ α, models α F = true → ∃ β, AgreeOff A α β ∧ models β G = true

section Completes
variable {A : ℕ → Prop} {F G G' : List (List ℤ)} {C : List ℤ}

theorem completes_nil (A : ℕ → Prop) (F : List (List ℤ)) : Completes A F [] :=
  fun α _ => ⟨α, fun _ _ => rfl, rfl⟩

/-- Clauses that follow from the ones derived. -/
theorem Completes.of_implied (h : Completes A F G)
    (himp : ∀ β, models β G = true → models β G' = true) : Completes A F G' := by
  intro α hα
  obtain ⟨β, hβ, hG⟩ := h α hα
  exact ⟨β, hβ, himp β hG⟩

/-- A new clause that does not mention the variables that may have changed. -/
theorem Completes.given (h : Completes A F G) (hC : ∀ l ∈ C, ¬A l.natAbs) :
    Completes A (F ++ [C]) (C :: G) := by
  intro α hα
  obtain ⟨hF, hsat⟩ := models_append_iff.mp hα
  obtain ⟨β, hβ, hG⟩ := h α hF
  refine ⟨β, hβ, models_iff.mpr fun D hD => ?_⟩
  rcases List.mem_cons.mp hD with rfl | hD
  · rwa [satisfies_congr fun l hl => hβ _ (hC l hl), ← models_singleton]
  · exact models_iff.mp hG D hD

theorem Completes.mono {B : ℕ → Prop} (h : Completes A F G) (hAB : ∀ v, A v → B v) : Completes B F G := by
  intro α hα
  obtain ⟨β, hβ, hG⟩ := h α hα
  exact ⟨β, fun v hv => hβ v fun hA => hv (hAB v hA), hG⟩

/-- A redundant clause whose witness is one literal. -/
theorem Completes.redundant (h : Completes A F G) {l : ℤ} (hl : Redundant G C [l]) :
    Completes (fun v => A v ∨ v = l.natAbs) F (C :: G) := by
  intro α hα
  obtain ⟨β, hβ, hG⟩ := h α hα
  have hsame : AgreeOff (fun v => A v ∨ v = l.natAbs) α β := fun v hv => hβ v fun hA => hv (.inl hA)
  cases hC : satisfies β C with
  | true =>
    refine ⟨β, hsame, models_iff.mpr fun D hD => ?_⟩
    rcases List.mem_cons.mp hD with rfl | hD
    · exact hC
    · exact models_iff.mp hG D hD
  | false =>
    have hflip : AgreeOff (fun v => A v ∨ v = l.natAbs) β (makeTrue β l) := makeTrue_agreeOff (.inr rfl)
    exact ⟨makeTrue β l, fun v hv => (hflip v hv).trans (hsame v hv), hl β hG hC⟩

end Completes
end Foundations
