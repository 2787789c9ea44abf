import Zusat.Foundations.Propagation

/-! # Checking a clause by unit propagation

A clause is checked by adding the negations of its literals as units and propagating until a clause becomes
false. The literals a solver has assigned are exactly what is propagated as soon as each was forced and no
clause forces another one. -/

namespace Foundations
set_option autoImplicit false

/-- No values are given. -/
abbrev noValues : PartialAssignment := fun _ => none

def units (ls : List ℤ) : List (List ℤ) := ls.map fun l => [l]

def negations (ls : List ℤ) : List ℤ := ls.map fun l => -l

/-- Propagating the negations of the literals leads to a conflict. -/
def Rup (F : List (List ℤ)) (c : List ℤ) : Prop := Conflicts (F ++ units (negations c)) noValues

theorem mem_units {ls : List ℤ} {cl : List ℤ} : cl ∈ units ls ↔ ∃ l ∈ ls, cl = [l] := by
  simp only [units, List.mem_map, eq_comm]

theorem mem_negations {ls : List ℤ} {l : ℤ} : l ∈ negations ls ↔ -l ∈ ls := by
  rw [negations, List.mem_map]
  constructor
  · rintro ⟨x, hx, rfl⟩
    rwa [Int.neg_neg]
  · exact fun h => ⟨-l, h, Int.neg_neg l⟩

section Closure
variable {F G : List (List ℤ)} {l : ℤ}

/-- A unit is propagated. -/
theorem Propagates.of_unit {p : PartialAssignment} (h : [l] ∈ F) : Propagates F p l :=
  .unit h List.mem_cons_self fun _ hx hne => absurd (List.mem_singleton.mp hx) hne

/-- Clauses count as sets of literals. -/
def SameLiterals (c d : List ℤ) : Prop := ∀ x, x ∈ c ↔ x ∈ d

theorem Propagates.mono {p : PartialAssignment} (hFG : ∀ c ∈ F, ∃ d ∈ G, SameLiterals c d)
    (h : Propagates F p l) : Propagates G p l := by
  induction h with
  | given hl => exact .given hl
  | @unit cl l hcl hl _ ih =>
    obtain ⟨d, hd, hsame⟩ := hFG cl hcl
    exact .unit hd ((hsame l).mp hl) fun x hx hne => ih x ((hsame x).mpr hx) hne

theorem Conflicts.mono {p : PartialAssignment} (hFG : ∀ c ∈ F, ∃ d ∈ G, SameLiterals c d)
    (h : Conflicts F p) : Conflicts G p := by
  obtain ⟨cl, hcl, hall⟩ := h
  obtain ⟨d, hd, hsame⟩ := hFG cl hcl
  exact ⟨d, hd, fun x hx => (hall x ((hsame x).mpr hx)).mono hFG⟩

theorem Rup.mono {c d : List ℤ} (hFG : ∀ a ∈ F, ∃ b ∈ G, SameLiterals a b) (hcd : ∀ x ∈ c, x ∈ d)
    (h : Rup F c) : Rup G d := by
  refine Conflicts.mono (fun cl hcl => ?_) h
  rcases List.mem_append.mp hcl with hcl | hcl
  · obtain ⟨b, hb, hsame⟩ := hFG cl hcl
    exact ⟨b, List.mem_append_left _ hb, hsame⟩
  · obtain ⟨x, hx, rfl⟩ := mem_units.mp hcl
    have hxd : x ∈ negations d := mem_negations.mpr (hcd _ (mem_negations.mp hx))
    exact ⟨[x], List.mem_append_right _ (mem_units.mpr ⟨x, hxd, rfl⟩), fun _ => Iff.rfl⟩

/-- Both signs of a literal are propagated when a unit is contradicted. -/
theorem conflicts_of_unit {p : PartialAssignment} (h : [l] ∈ F) (hneg : Propagates F p (-l)) :
    Conflicts F p := by
  refine ⟨[l], h, fun x hx => ?_⟩
  rw [List.mem_singleton.mp hx]
  exact hneg

/-- A clause with two complementary literals, or with a literal that is a unit of the formula, passes. -/
theorem rup_of_clash {c : List ℤ} (hl : l ∈ c) (hneg : -l ∈ c) : Rup F c := by
  have hleft : [l] ∈ F ++ units (negations c) :=
    List.mem_append_right _ (mem_units.mpr ⟨l, mem_negations.mpr hneg, rfl⟩)
  have hright : [-l] ∈ F ++ units (negations c) :=
    List.mem_append_right _ (mem_units.mpr ⟨-l, mem_negations.mpr (by rwa [Int.neg_neg]), rfl⟩)
  exact conflicts_of_unit hleft (.of_unit hright)

theorem rup_of_unit {c : List ℤ} (hl : l ∈ c) (hunit : [l] ∈ F) : Rup F c := by
  have hright : [-l] ∈ F ++ units (negations c) :=
    List.mem_append_right _ (mem_units.mpr ⟨-l, mem_negations.mpr (by rwa [Int.neg_neg]), rfl⟩)
  exact conflicts_of_unit (List.mem_append_left _ hunit) (.of_unit hright)

/-! ## Trails -/

/-- No clause forces a literal that is not assigned. -/
def Closed (F : List (List ℤ)) (trail : List ℤ) : Prop :=
  ∀ c ∈ F, ∀ l ∈ c, (∀ x ∈ c, x ≠ l → -x ∈ trail) → l ∈ trail

theorem mem_trail_of_propagates {trail : List ℤ} (hclosed : Closed F trail) (h : Propagates F noValues l) :
    l ∈ trail := by
  induction h with
  | given hl => cases hl
  | @unit cl l hcl hl _ ih => exact hclosed cl hcl l hl ih

/-- There is no conflict where no clause is false. -/
theorem not_conflicts_of_closed {trail : List ℤ} (hclosed : Closed F trail)
    (htrue : ∀ c ∈ F, ∃ x ∈ c, -x ∉ trail) : ¬Conflicts F noValues := by
  rintro ⟨cl, hcl, hall⟩
  obtain ⟨x, hx, hnot⟩ := htrue cl hcl
  exact hnot (mem_trail_of_propagates hclosed (hall x hx))

end Closure

/-! ## Models -/

/-- Every model satisfies a clause that passes. -/
theorem Rup.satisfies {F : List (List ℤ)} {c : List ℤ} (h : Rup F c) (hF : ∀ cl ∈ F, (0 : ℤ) ∉ cl)
    (hc : (0 : ℤ) ∉ c) {α : Assignment} (hα : models α F = true) : satisfies α c = true := by
  by_contra hfalse
  have hneg : models α (units (negations c)) = true := by
    refine models_iff.mpr fun cl hcl => ?_
    obtain ⟨x, hx, rfl⟩ := mem_units.mp hcl
    have hmem : -x ∈ c := mem_negations.mp hx
    have hx0 : x ≠ 0 := by
      rintro rfl
      exact hc hmem
    refine satisfies_iff.mpr ⟨x, List.mem_cons_self, ?_⟩
    cases hval : holds α x with
    | true => rfl
    | false => exact absurd (satisfies_iff.mpr ⟨-x, hmem, by rw [holds_neg hx0, hval]; rfl⟩) hfalse
  refine not_conflicts (models_append_iff.mpr ⟨hα, hneg⟩) (p := noValues) (fun v b hv => by cases hv) ?_ h
  intro cl hcl
  rcases List.mem_append.mp hcl with hcl | hcl
  · exact hF cl hcl
  · obtain ⟨x, hx, rfl⟩ := mem_units.mp hcl
    intro h0
    rw [← List.mem_singleton.mp h0] at hx
    exact hc (mem_negations.mp hx)

end Foundations
