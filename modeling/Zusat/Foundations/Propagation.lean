import Zusat.Foundations.Cnf
import Mathlib.Data.List.Nodup

/-! # Unit propagation

From values for some variables, a clause all of whose literals but one are false makes that one true.
`Propagates` is the closure under this rule, so it does not depend on the order in which clauses are
looked at; there is a conflict when it makes every literal of a clause false. Whatever is propagated is
true in every model that extends the given values. -/

namespace Foundations
set_option autoImplicit false

/-- Values for some variables. -/
abbrev PartialAssignment := ℕ → Option Bool

/-- The literal is true already. -/
def PartialAssignment.sets (p : PartialAssignment) (l : ℤ) : Bool :=
  p l.natAbs == some (!decide (l < 0))

/-- `β` gives the variables of `p` their values. -/
def PartialAssignment.Extends (p : PartialAssignment) (β : Assignment) : Prop :=
  ∀ v b, p v = some b → β v = b

/-- What unit propagation over `F` makes true, starting from `p`. -/
inductive Propagates (F : List (List ℤ)) (p : PartialAssignment) : ℤ → Prop
  | given {l : ℤ} (hl : p.sets l = true) : Propagates F p l
  | unit {cl : List ℤ} {l : ℤ} (hcl : cl ∈ F) (hl : l ∈ cl)
      (hothers : ∀ x ∈ cl, x ≠ l → Propagates F p (-x)) : Propagates F p l

/-- Some clause has become false. -/
def Conflicts (F : List (List ℤ)) (p : PartialAssignment) : Prop :=
  ∃ cl ∈ F, ∀ x ∈ cl, Propagates F p (-x)

/-! ## Clauses of two and three literals -/

section Rules
variable {F : List (List ℤ)} {p : PartialAssignment} {a b c : ℤ}

theorem Propagates.of_neg_neg (h : Propagates F p a) : Propagates F p (- -a) := by
  rw [Int.neg_neg]
  exact h

theorem Propagates.implied (hcl : [-a, b] ∈ F) (ha : Propagates F p a) : Propagates F p b := by
  refine .unit hcl (by simp) fun x hx hne => ?_
  simp only [List.mem_cons, List.not_mem_nil, or_false] at hx
  rcases hx with rfl | rfl
  · exact ha.of_neg_neg
  · exact absurd rfl hne

theorem Propagates.contrapositive (hcl : [-a, b] ∈ F) (hb : Propagates F p (-b)) :
    Propagates F p (-a) := by
  refine .unit hcl (by simp) fun x hx hne => ?_
  simp only [List.mem_cons, List.not_mem_nil, or_false] at hx
  rcases hx with rfl | rfl
  · exact absurd rfl hne
  · exact hb

theorem Propagates.implied_both (hcl : [-a, -b, c] ∈ F) (ha : Propagates F p a)
    (hb : Propagates F p b) : Propagates F p c := by
  refine .unit hcl (by simp) fun x hx hne => ?_
  simp only [List.mem_cons, List.not_mem_nil, or_false] at hx
  rcases hx with rfl | rfl | rfl
  · exact ha.of_neg_neg
  · exact hb.of_neg_neg
  · exact absurd rfl hne

theorem Propagates.not_first (hcl : [-a, -b, c] ∈ F) (hb : Propagates F p b)
    (hc : Propagates F p (-c)) : Propagates F p (-a) := by
  refine .unit hcl (by simp) fun x hx hne => ?_
  simp only [List.mem_cons, List.not_mem_nil, or_false] at hx
  rcases hx with rfl | rfl | rfl
  · exact absurd rfl hne
  · exact hb.of_neg_neg
  · exact hc

theorem Propagates.not_second (hcl : [-a, -b, c] ∈ F) (ha : Propagates F p a)
    (hc : Propagates F p (-c)) : Propagates F p (-b) := by
  refine .unit hcl (by simp) fun x hx hne => ?_
  simp only [List.mem_cons, List.not_mem_nil, or_false] at hx
  rcases hx with rfl | rfl | rfl
  · exact ha.of_neg_neg
  · exact absurd rfl hne
  · exact hc

theorem conflicts_of_both (hcl : [-a, -b] ∈ F) (ha : Propagates F p a) (hb : Propagates F p b) :
    Conflicts F p := by
  refine ⟨_, hcl, fun x hx => ?_⟩
  simp only [List.mem_cons, List.not_mem_nil, or_false] at hx
  rcases hx with rfl | rfl
  · exact ha.of_neg_neg
  · exact hb.of_neg_neg

end Rules

/-! ## Models -/

section Sound
variable {F : List (List ℤ)} {p : PartialAssignment} {β : Assignment}

theorem holds_of_sets (hp : p.Extends β) {l : ℤ} (hl : p.sets l = true) : holds β l = true := by
  have hv : p l.natAbs = some (!decide (l < 0)) := by
    rw [PartialAssignment.sets] at hl
    exact eq_of_beq hl
  rw [holds, hp _ _ hv]
  by_cases hneg : l < 0 <;> simp [hneg]

theorem Propagates.holds (hm : models β F = true) (hp : p.Extends β) (hF : ∀ cl ∈ F, (0 : ℤ) ∉ cl)
    {l : ℤ} (h : Propagates F p l) : holds β l = true := by
  induction h with
  | given hl => exact holds_of_sets hp hl
  | @unit cl l hcl hl hothers ih =>
    -- the clause is true in `β`, and none of its other literals is
    obtain ⟨x, hx, htrue⟩ := satisfies_iff.mp (models_iff.mp hm cl hcl)
    by_cases hxl : x = l
    · rw [← hxl]
      exact htrue
    · have hfalse := ih x hx hxl
      have hx0 : x ≠ 0 := fun h0 => hF cl hcl (h0 ▸ hx)
      rw [holds_neg hx0, htrue] at hfalse
      cases hfalse

theorem not_conflicts (hm : models β F = true) (hp : p.Extends β) (hF : ∀ cl ∈ F, (0 : ℤ) ∉ cl) :
    ¬Conflicts F p := by
  rintro ⟨cl, hcl, hall⟩
  obtain ⟨x, hx, htrue⟩ := satisfies_iff.mp (models_iff.mp hm cl hcl)
  have hfalse := (hall x hx).holds hm hp hF
  have hx0 : x ≠ 0 := fun h0 => hF cl hcl (h0 ▸ hx)
  rw [holds_neg hx0, htrue] at hfalse
  cases hfalse

end Sound

/-! ## The extension that makes the rest of a list false -/

/-- Every literal of `ls` that `p` leaves open is made false. -/
def PartialAssignment.elseFalse (p : PartialAssignment) (ls : List ℤ) : Assignment := fun v =>
  (p v).getD (decide (-(v : ℤ) ∈ ls))

theorem extends_elseFalse (p : PartialAssignment) (ls : List ℤ) : p.Extends (p.elseFalse ls) := by
  intro v b hv
  rw [PartialAssignment.elseFalse, hv]
  rfl

theorem holds_elseFalse {p : PartialAssignment} {ls : List ℤ} (hls : ∀ l ∈ ls, l ≠ 0)
    (hdistinct : (ls.map Int.natAbs).Nodup) {l : ℤ} (hl : l ∈ ls) :
    holds (p.elseFalse ls) l = p.sets l := by
  have hne := hls l hl
  have hopp : -l ∉ ls := by
    intro hneg
    have heq : -l = l := List.inj_on_of_nodup_map hdistinct hneg hl (Int.natAbs_neg l)
    omega
  have hcast : l < 0 → -((l.natAbs : ℕ) : ℤ) = l := fun h => by omega
  have hcast' : ¬l < 0 → -((l.natAbs : ℕ) : ℤ) = -l := fun h => by omega
  rw [holds, PartialAssignment.elseFalse, PartialAssignment.sets]
  by_cases hneg : l < 0
  · rw [if_pos hneg, hcast hneg]
    cases p l.natAbs <;> simp [hl, hneg]
  · rw [if_neg hneg, hcast' hneg]
    cases p l.natAbs <;> simp [hopp, hneg]

theorem trueCount_elseFalse {p : PartialAssignment} {ls : List ℤ} (hls : ∀ l ∈ ls, l ≠ 0)
    (hdistinct : (ls.map Int.natAbs).Nodup) :
    trueCount (p.elseFalse ls) ls = ls.countP p.sets :=
  List.countP_congr fun l hl => by rw [holds_elseFalse hls hdistinct hl]

end Foundations
