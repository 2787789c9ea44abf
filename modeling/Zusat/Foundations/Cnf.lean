import Mathlib.Data.Int.Notation
import Mathlib.Data.List.Count
import Mathlib.Order.Lattice
import Mathlib.Tactic.Common

/-! # Formulas in conjunctive normal form over signed integers

A literal is a non-zero integer, its variable is the absolute value, an assignment gives every
variable a value. Besides the meaning of clauses this module has the one general fact about
definitional extensions: two formulas whose hidden variables do not interfere can be conjoined, and
the meaning over the visible variables is the conjunction of the meanings (`conservative_append`).
-/

namespace Foundations
set_option autoImplicit false

/-- Values for all variables. -/
abbrev Assignment := ℕ → Bool

/-- A literal is true. -/
def holds (α : Assignment) (l : ℤ) : Bool := if l < 0 then !α l.natAbs else α l.natAbs

/-- A clause is true. -/
def satisfies (α : Assignment) (cl : List ℤ) : Bool := cl.any (holds α)

/-- Every clause of a formula is true. -/
def models (α : Assignment) (F : List (List ℤ)) : Bool := F.all (satisfies α)

/-- The number of true literals of a list. -/
def trueCount (α : Assignment) (ls : List ℤ) : ℕ := ls.countP (holds α)

/-- The largest variable of a list of literals, 0 when there is none. -/
def topVar (ls : List ℤ) : ℕ := ls.foldr (fun l m => max l.natAbs m) 0

/-! ## Clauses and formulas -/

theorem holds_neg {l : ℤ} (hl : l ≠ 0) (α : Assignment) : holds α (-l) = !holds α l := by
  rw [holds, holds, Int.natAbs_neg]
  rcases lt_or_gt_of_ne hl with h | h
  · rw [if_neg (by omega), if_pos h, Bool.not_not]
  · rw [if_pos (by omega), if_neg (by omega)]

theorem holds_natCast (α : Assignment) (v : ℕ) : holds α (v : ℤ) = α v := by
  rw [holds, if_neg (by omega), Int.natAbs_natCast]

theorem satisfies_iff {α : Assignment} {cl : List ℤ} :
    satisfies α cl = true ↔ ∃ l ∈ cl, holds α l = true := List.any_eq_true

theorem models_iff {α : Assignment} {F : List (List ℤ)} :
    models α F = true ↔ ∀ cl ∈ F, satisfies α cl = true := List.all_eq_true

@[simp] theorem models_append (α : Assignment) (F G : List (List ℤ)) :
    models α (F ++ G) = (models α F && models α G) := List.all_append

theorem models_append_iff {α : Assignment} {F G : List (List ℤ)} :
    models α (F ++ G) = true ↔ models α F = true ∧ models α G = true := by
  rw [models_append, Bool.and_eq_true_iff]

theorem models_singleton (α : Assignment) (cl : List ℤ) : models α [cl] = satisfies α cl := by
  simp [models]

/-! ## The largest variable -/

theorem natAbs_le_topVar {l : ℤ} {ls : List ℤ} (h : l ∈ ls) : l.natAbs ≤ topVar ls := by
  induction ls with
  | nil => cases h
  | cons x ls ih =>
    rcases List.mem_cons.mp h with rfl | h
    · exact le_max_left ..
    · exact le_trans (ih h) (le_max_right ..)

theorem topVar_le {ls : List ℤ} {n : ℕ} (h : ∀ l ∈ ls, l.natAbs ≤ n) : topVar ls ≤ n := by
  induction ls with
  | nil => exact Nat.zero_le n
  | cons x ls ih =>
    exact max_le (h x (List.mem_cons_self ..)) (ih fun l hl => h l (List.mem_cons_of_mem x hl))

theorem topVar_attained (ls : List ℤ) : topVar ls = 0 ∨ ∃ l ∈ ls, l.natAbs = topVar ls := by
  induction ls with
  | nil => exact .inl rfl
  | cons x ls ih =>
    have hcons : topVar (x :: ls) = max x.natAbs (topVar ls) := rfl
    rw [hcons]
    rcases le_total (topVar ls) x.natAbs with hle | hle
    · exact .inr ⟨x, List.mem_cons_self .., (max_eq_left hle).symm⟩
    · rw [max_eq_right hle]
      exact ih.imp_right fun ⟨l, hl, htop⟩ => ⟨l, List.mem_cons_of_mem x hl, htop⟩

theorem topVar_append (xs ys : List ℤ) : topVar (xs ++ ys) = max (topVar xs) (topVar ys) := by
  induction xs with
  | nil => exact (Nat.zero_max _).symm
  | cons x xs ih =>
    change max x.natAbs (topVar (xs ++ ys)) = max (max x.natAbs (topVar xs)) (topVar ys)
    rw [ih, max_assoc]

theorem topVar_singleton (l : ℤ) : topVar [l] = l.natAbs := max_eq_left (Nat.zero_le _)

/-! ## What the meaning depends on -/

theorem holds_congr {α β : Assignment} {l : ℤ} (h : α l.natAbs = β l.natAbs) :
    holds α l = holds β l := by
  rw [holds, holds, h]

theorem satisfies_congr {α β : Assignment} {cl : List ℤ}
    (h : ∀ l ∈ cl, α l.natAbs = β l.natAbs) : satisfies α cl = satisfies β cl := by
  induction cl with
  | nil => rfl
  | cons x cl ih =>
    rw [satisfies, List.any_cons, holds_congr (h x (List.mem_cons_self ..)), satisfies,
      List.any_cons]
    exact congrArg _ (ih fun l hl => h l (List.mem_cons_of_mem x hl))

theorem models_congr {α β : Assignment} {F : List (List ℤ)}
    (h : ∀ cl ∈ F, ∀ l ∈ cl, α l.natAbs = β l.natAbs) : models α F = models β F := by
  induction F with
  | nil => rfl
  | cons cl F ih =>
    rw [models, List.all_cons, satisfies_congr (h cl (List.mem_cons_self ..)), models,
      List.all_cons]
    exact congrArg _ (ih fun c hc => h c (List.mem_cons_of_mem cl hc))

theorem trueCount_congr {α β : Assignment} {ls : List ℤ}
    (h : ∀ l ∈ ls, α l.natAbs = β l.natAbs) : trueCount α ls = trueCount β ls :=
  List.countP_congr fun l hl => by rw [holds_congr (h l hl)]

theorem trueCount_le_length (α : Assignment) (ls : List ℤ) : trueCount α ls ≤ ls.length :=
  List.countP_le_length

/-- Negating every literal turns the true ones into the false ones. -/
theorem trueCount_map_neg {ls : List ℤ} (h : ∀ l ∈ ls, l ≠ 0) (α : Assignment) :
    trueCount α (ls.map (- ·)) + trueCount α ls = ls.length := by
  induction ls with
  | nil => rfl
  | cons x ls ih =>
    have ihx := ih fun l hl => h l (List.mem_cons_of_mem x hl)
    have hx := holds_neg (h x (List.mem_cons_self ..)) α
    simp only [trueCount, List.map_cons, List.countP_cons, List.length_cons, hx] at ihx ⊢
    cases holds α x with
    | false => rw [Bool.not_false, if_pos rfl, if_neg Bool.false_ne_true]; omega
    | true => rw [Bool.not_true, if_neg Bool.false_ne_true, if_pos rfl]; omega

/-! ## Definitional extensions -/

/-- The two assignments differ at most on the variables of `A`. -/
def AgreeOff (A : ℕ → Prop) (α β : Assignment) : Prop := ∀ v, ¬A v → β v = α v

/-- Over the variables outside `A`, the formula `F` means `M`. -/
def Means (A : ℕ → Prop) (F : List (List ℤ)) (M : Assignment → Prop) : Prop :=
  ∀ α, (∃ β, AgreeOff A α β ∧ models β F = true) ↔ M α

/-- No clause of the formula has a variable in `B`. -/
def Avoids (F : List (List ℤ)) (B : ℕ → Prop) : Prop := ∀ cl ∈ F, ∀ l ∈ cl, ¬B l.natAbs

/-- What the literals of a condition decide does not change on the variables of `A`. -/
def Ignores (P : Assignment → Prop) (A : ℕ → Prop) : Prop :=
  ∀ α β, AgreeOff A α β → P α → P β

theorem AgreeOff.symm {A : ℕ → Prop} {α β : Assignment} (h : AgreeOff A α β) : AgreeOff A β α :=
  fun v hv => (h v hv).symm

theorem models_of_avoids {F : List (List ℤ)} {B : ℕ → Prop} (hF : Avoids F B)
    {α β : Assignment} (h : AgreeOff B α β) : models β F = models α F :=
  models_congr fun cl hcl l hl => h _ (hF cl hcl l hl)

theorem Means.congr {A A' : ℕ → Prop} {F : List (List ℤ)} {M M' : Assignment → Prop}
    (h : Means A F M) (hA : ∀ v, A v ↔ A' v) (hM : ∀ α, M α ↔ M' α) : Means A' F M' := by
  obtain rfl : A = A' := funext fun v => propext (hA v)
  obtain rfl : M = M' := funext fun α => propext (hM α)
  exact h

/-- A formula without hidden variables means itself. -/
theorem means_self (F : List (List ℤ)) : Means (fun _ => False) F (fun α => models α F = true) := by
  intro α
  constructor
  · rintro ⟨β, hβ, hm⟩
    rwa [models_of_avoids (fun _ _ _ _ => not_false) hβ] at hm
  · exact fun hm => ⟨α, fun _ _ => rfl, hm⟩

/-- Hidden variables do not matter to the meaning. -/
theorem Means.ignores {A : ℕ → Prop} {F : List (List ℤ)} {M : Assignment → Prop}
    (h : Means A F M) : Ignores M A := by
  intro α β hαβ hα
  obtain ⟨γ, hγ, hm⟩ := (h α).mpr hα
  exact (h β).mp ⟨γ, fun v hv => (hγ v hv).trans (hαβ v hv).symm, hm⟩

open Classical in
/-- Two formulas with hidden variables `A` and `B` can be conjoined when the first does not mention
`B` and the meaning of the second does not depend on `A`. -/
theorem conservative_append {A B : ℕ → Prop} {F G : List (List ℤ)} {M P : Assignment → Prop}
    (hF : Means A F M) (hG : Means B G P) (hFB : Avoids F B) (hPA : Ignores P A) :
    Means (fun v => A v ∨ B v) (F ++ G) (fun α => M α ∧ P α) := by
  intro α
  constructor
  · rintro ⟨β, hβ, hm⟩
    obtain ⟨hmF, hmG⟩ := models_append_iff.mp hm
    -- `γ` is `β` with the hidden variables of `G` as in `α`
    let γ : Assignment := fun v => if B v then α v else β v
    have hγβ : AgreeOff B β γ := fun v hv => if_neg hv
    have hγα : AgreeOff A γ α := by
      intro v hv
      by_cases hb : B v
      · exact (if_pos hb).symm
      · exact ((if_neg hb).trans (hβ v (not_or.mpr ⟨hv, hb⟩))).symm
    have hPγ : P γ := hG.ignores β γ hγβ ((hG β).mp ⟨β, fun _ _ => rfl, hmG⟩)
    refine ⟨(hF α).mp ⟨γ, hγα.symm, ?_⟩, hPA γ α hγα hPγ⟩
    rw [models_of_avoids hFB hγβ, hmF]
  · rintro ⟨hM, hP⟩
    obtain ⟨β, hβ, hmF⟩ := (hF α).mpr hM
    obtain ⟨γ, hγ, hmG⟩ := (hG β).mpr (hPA α β hβ hP)
    refine ⟨γ, fun v hv => ?_, models_append_iff.mpr ⟨?_, hmG⟩⟩
    · exact (hγ v (not_or.mp hv).2).trans (hβ v (not_or.mp hv).1)
    · rw [models_of_avoids hFB hγ, hmF]

end Foundations
