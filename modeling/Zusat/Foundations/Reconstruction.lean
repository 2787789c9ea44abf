import Zusat.Foundations.Redundancy

/-! # Reconstructing models of a formula whose redundant clauses have been set aside

Clauses that are redundant at the moment they are removed are kept on a stack with their witnesses. A model
of what is left is turned into a model of everything by going back over the stack and repairing each clause
that is false.

New clauses may spoil this: a witness that falsifies a literal of a new clause is no witness any more. Such
a literal is tainted, and clauses with a witness that falsifies a tainted literal are moved back from the
stack, which may taint further literals. One pass from the bottom to the top is enough, because a clause was
redundant in the presence of all the clauses above it. -/

namespace Foundations
set_option autoImplicit false

/-- A clause that has been set aside. -/
structure Weakened (ι : Type) where
  witness : List ℤ
  tag : ι
  clause : List ℤ
  deriving DecidableEq, Repr

namespace Weakened
variable {ι : Type}

/-- The clauses of a stack. -/
def clauses (es : List (Weakened ι)) : List (List ℤ) := es.map (·.clause)

/-- Repair one clause. -/
def repair (e : Weakened ι) (α : Assignment) : Assignment :=
  if satisfies α e.clause then α else makeAll α e.witness

/-- Go back over the stack. -/
def reconstruct (α : Assignment) (es : List (Weakened ι)) : Assignment := es.foldr repair α

/-- Each clause is redundant in the formula and the clauses above it. -/
def Supported (F : List (List ℤ)) : List (Weakened ι) → Prop
  | [] => True
  | e :: es => Redundant (F ++ clauses es) e.clause e.witness ∧ Supported F es

/-- The witness falsifies a tainted literal. -/
def dirty (tainted : List ℤ) (e : Weakened ι) : Bool := e.witness.any fun x => tainted.contains (-x)

/-- Each clause is redundant or its witness is dirty. -/
def Guarded (F : List (List ℤ)) (tainted : List ℤ) : List (Weakened ι) → Prop
  | [] => True
  | e :: es => (dirty tainted e = true ∨ Redundant (F ++ clauses es) e.clause e.witness) ∧
      Guarded F tainted es

/-! ## Repairing -/

theorem models_cons {α : Assignment} {C : List ℤ} {F : List (List ℤ)} :
    models α (C :: F) = true ↔ satisfies α C = true ∧ models α F = true := by
  rw [models, List.all_cons, Bool.and_eq_true]
  rfl

theorem models_repair {F : List (List ℤ)} {e : Weakened ι} {α : Assignment}
    (h : Redundant F e.clause e.witness) (hα : models α F = true) :
    models (e.repair α) (e.clause :: F) = true := by
  unfold repair
  split
  · next hsat => exact models_cons.mpr ⟨hsat, hα⟩
  · next hfalse => exact h α hα (Bool.not_eq_true _ ▸ hfalse)

/-- The repaired assignment is a model of the formula and of every clause on the stack. -/
theorem models_reconstruct {F : List (List ℤ)} {es : List (Weakened ι)} (h : Supported F es)
    {α : Assignment} (hα : models α F = true) : models (reconstruct α es) (F ++ clauses es) = true := by
  induction es with
  | nil =>
    rw [clauses, List.map_nil, List.append_nil]
    exact hα
  | cons e es ih =>
    have hrepair := models_cons.mp (models_repair h.1 (ih h.2))
    have hboth := models_append_iff.mp hrepair.2
    exact models_append_iff.mpr ⟨hboth.1, models_cons.mpr ⟨hrepair.1, hboth.2⟩⟩

/-! ## Changing the formula -/

/-- Redundancy depends on the models of the formula only. -/
theorem redundant_congr {F G : List (List ℤ)} (h : ∀ α, models α F = true ↔ models α G = true)
    {C w : List ℤ} (hred : Redundant F C w) : Redundant G C w := by
  intro α hα hC
  obtain ⟨hsat, hF⟩ := models_cons.mp (hred α ((h α).mpr hα) hC)
  exact models_cons.mpr ⟨hsat, (h _).mp hF⟩

theorem holds_makeAll {w : List ℤ} {α : Assignment} {l : ℤ} (hw : -l ∉ w) (h : holds α l = true) :
    holds (makeAll α w) l = true := by
  unfold makeAll
  induction w generalizing α with
  | nil => exact h
  | cons x w ih =>
    rw [List.foldl_cons]
    refine ih (fun hmem => hw (List.mem_cons_of_mem x hmem)) (holds_makeTrue_of_ne ?_ h)
    rintro rfl
    exact hw (by rw [Int.neg_neg]; exact List.mem_cons_self ..)

/-- A clause that no literal of the witness falsifies may be added. -/
theorem redundant_add {F : List (List ℤ)} {C w D : List ℤ} (hred : Redundant F C w)
    (hD : ∀ l ∈ D, -l ∉ w) : Redundant (D :: F) C w := by
  intro α hα hC
  obtain ⟨hsat, hF⟩ := models_cons.mp hα
  obtain ⟨hsat', hF'⟩ := models_cons.mp (hred α hF hC)
  obtain ⟨l, hl, htrue⟩ := satisfies_iff.mp hsat
  have hkept : satisfies (makeAll α w) D = true :=
    satisfies_iff.mpr ⟨l, hl, holds_makeAll (hD l hl) htrue⟩
  exact models_cons.mpr ⟨hsat', models_cons.mpr ⟨hkept, hF'⟩⟩

section Change
variable {F G : List (List ℤ)} {tainted tainted' : List ℤ} {es : List (Weakened ι)}

theorem models_append_congr (h : ∀ α, models α F = true ↔ models α G = true) (H : List (List ℤ))
    (α : Assignment) : models α (F ++ H) = true ↔ models α (G ++ H) = true := by
  rw [models_append_iff, models_append_iff, h]

theorem Guarded.congr (h : Guarded F tainted es) (hFG : ∀ α, models α F = true ↔ models α G = true) :
    Guarded G tainted es := by
  induction es with
  | nil => trivial
  | cons e es ih =>
    exact ⟨h.1.imp_right (redundant_congr (models_append_congr hFG _)), ih h.2⟩

theorem dirty_mono (hsub : ∀ l ∈ tainted, l ∈ tainted') {e : Weakened ι} (h : dirty tainted e = true) :
    dirty tainted' e = true := by
  obtain ⟨x, hx, hmem⟩ := List.any_eq_true.mp h
  refine List.any_eq_true.mpr ⟨x, hx, ?_⟩
  rw [List.contains_iff_mem] at hmem ⊢
  exact hsub _ hmem

theorem Guarded.taint (h : Guarded F tainted es) (hsub : ∀ l ∈ tainted, l ∈ tainted') :
    Guarded F tainted' es := by
  induction es with
  | nil => trivial
  | cons e es ih => exact ⟨h.1.imp_left (dirty_mono hsub), ih h.2⟩

theorem Guarded.supported (h : Guarded F [] es) : Supported F es := by
  induction es with
  | nil => trivial
  | cons e es ih =>
    refine ⟨h.1.resolve_left fun hdirty => ?_, ih h.2⟩
    obtain ⟨x, -, hmem⟩ := List.any_eq_true.mp hdirty
    cases hmem

theorem Supported.guarded (h : Supported F es) (tainted : List ℤ) : Guarded F tainted es := by
  induction es with
  | nil => trivial
  | cons e es ih => exact ⟨.inr h.1, ih h.2⟩

/-- A new clause all of whose literals are tainted that falsify a witness. -/
theorem Guarded.add (h : Guarded F tainted es) {D : List ℤ}
    (hD : ∀ e ∈ es, ∀ l ∈ D, -l ∈ e.witness → l ∈ tainted) : Guarded (F ++ [D]) tainted es := by
  induction es with
  | nil => trivial
  | cons e es ih =>
    refine ⟨?_, ih h.2 fun e' he' => hD e' (List.mem_cons_of_mem e he')⟩
    by_cases hclash : ∃ l ∈ D, -l ∈ e.witness
    · obtain ⟨l, hl, hw⟩ := hclash
      refine .inl (List.any_eq_true.mpr ⟨-l, hw, ?_⟩)
      rw [List.contains_iff_mem, Int.neg_neg]
      exact hD e (List.mem_cons_self ..) l hl hw
    · refine h.1.imp_right fun hred => ?_
      have hadd := redundant_add hred fun l hl hw => hclash ⟨l, hl, hw⟩
      refine redundant_congr (fun α => ?_) hadd
      rw [models_cons, models_append_iff, models_append_iff, models_append_iff, models_singleton]
      tauto

/-- A redundant clause is set aside. -/
theorem Guarded.push {C : List ℤ} (h : Guarded F tainted es)
    (hF : ∀ α, models α F = true ↔ models α (C :: G) = true) {e : Weakened ι} (he : e.clause = C)
    (hred : Redundant G e.clause e.witness) : Guarded G tainted (es ++ [e]) := by
  induction es with
  | nil =>
    refine ⟨.inr ?_, trivial⟩
    rw [clauses, List.map_nil, List.append_nil]
    exact hred
  | cons x es ih =>
    refine ⟨h.1.imp_right (redundant_congr fun α => ?_), ih h.2⟩
    have hclauses : clauses (es ++ [e]) = clauses es ++ [C] := by simp [clauses, he]
    change _ ↔ models α (G ++ clauses (es ++ [e])) = true
    rw [hclauses, models_append_iff, models_append_iff, models_append_iff, hF, models_cons, models_singleton]
    tauto

end Change

/-! ## Moving clauses back -/

/-- Taint the literals of a clause whose negations are marked as witnesses. -/
def taint (marked : List ℤ) (tainted : List ℤ) (D : List ℤ) : List ℤ :=
  D.foldl (fun t l => if !t.contains l && marked.contains (-l) then t ++ [l] else t) tainted

theorem subset_taint (marked tainted D : List ℤ) : ∀ l ∈ tainted, l ∈ taint marked tainted D := by
  unfold taint
  induction D generalizing tainted with
  | nil => exact fun l hl => hl
  | cons x D ih =>
    intro l hl
    rw [List.foldl_cons]
    refine ih _ l ?_
    split
    · exact List.mem_append_left _ hl
    · exact hl

theorem mem_taint {marked tainted D : List ℤ} {l : ℤ} (hl : l ∈ D) (hm : -l ∈ marked) :
    l ∈ taint marked tainted D := by
  induction D generalizing tainted with
  | nil => cases hl
  | cons x D ih =>
    rcases List.mem_cons.mp hl with rfl | hl
    · refine subset_taint marked _ D l ?_
      change l ∈ if !tainted.contains l && marked.contains (-l) then tainted ++ [l] else tainted
      rw [List.contains_iff_mem.mpr hm, Bool.and_true]
      split
      · exact List.mem_append_right _ (List.mem_singleton_self l)
      · next hin => simpa using hin
    · exact ih hl

/-- One pass over the stack. A clause that `implied` says the formula implies is dropped, a clause with a
dirty witness is moved back, and so is every other one when `all` is set. What is left of the stack and the
new formula are returned. -/
def restore (implied : List (List ℤ) → List ℤ → Bool) (all : Bool) (marked : List ℤ) :
    List (Weakened ι) → List ℤ → List (List ℤ) → List (Weakened ι) × List (List ℤ)
  | [], _, F => ([], F)
  | e :: es, tainted, F =>
    if implied F e.clause then restore implied all marked es tainted F
    else if dirty tainted e || all then
      restore implied all marked es (taint marked tainted e.clause) (F ++ [e.clause])
    else
      let rest := restore implied all marked es tainted F
      (e :: rest.1, rest.2)

theorem restore_sublist {implied : List (List ℤ) → List ℤ → Bool} {all : Bool} {marked : List ℤ}
    {es : List (Weakened ι)} {tainted : List ℤ} {F : List (List ℤ)} :
    (restore implied all marked es tainted F).1.Sublist es := by
  induction es generalizing tainted F with
  | nil => exact List.Sublist.slnil
  | cons x es ih =>
    rw [restore]
    split_ifs
    · exact ih.cons x
    · exact ih.cons x
    · exact ih.cons_cons x

/-- After the pass every clause on the stack is redundant again, and nothing has been lost or gained. -/
theorem restore_sound {implied : List (List ℤ) → List ℤ → Bool}
    (himplied : ∀ F C, implied F C = true → ∀ α, models α F = true → satisfies α C = true) {all : Bool}
    {marked : List ℤ} {es : List (Weakened ι)} (hmarked : ∀ e ∈ es, ∀ x ∈ e.witness, x ∈ marked)
    {tainted : List ℤ} {F : List (List ℤ)} (h : Guarded F tainted es) :
    Supported (restore implied all marked es tainted F).2 (restore implied all marked es tainted F).1 ∧
      ∀ α, models α ((restore implied all marked es tainted F).2 ++
        clauses (restore implied all marked es tainted F).1) = true ↔ models α (F ++ clauses es) = true := by
  induction es generalizing tainted F with
  | nil => exact ⟨trivial, fun α => Iff.rfl⟩
  | cons e es ih =>
    have hrest : ∀ e' ∈ es, ∀ x ∈ e'.witness, x ∈ marked := fun e' he' =>
      hmarked e' (List.mem_cons_of_mem e he')
    have hcons : ∀ α, models α (F ++ clauses (e :: es)) = true ↔
        models α F = true ∧ satisfies α e.clause = true ∧ models α (clauses es) = true := by
      intro α
      rw [models_append_iff, clauses, List.map_cons, models_cons]
      rfl
    rw [restore]
    split_ifs with hflush hback
    · obtain ⟨hsup, hsame⟩ := ih hrest h.2
      refine ⟨hsup, fun α => (hsame α).trans ?_⟩
      rw [hcons, models_append_iff]
      have hsat := himplied F e.clause hflush α
      tauto
    · have hguard : Guarded (F ++ [e.clause]) (taint marked tainted e.clause) es := by
        refine (h.2.taint (subset_taint marked tainted e.clause)).add fun e' he' l hl hw => ?_
        exact mem_taint hl (hrest e' he' _ hw)
      obtain ⟨hsup, hsame⟩ := ih hrest hguard
      refine ⟨hsup, fun α => (hsame α).trans ?_⟩
      rw [hcons, models_append_iff, models_append_iff, models_singleton, and_assoc]
    · obtain ⟨hsup, hsame⟩ := ih hrest h.2
      have hclean : dirty tainted e = false := by
        cases hd : dirty tainted e with
        | false => rfl
        | true => exact absurd (by rw [hd]; rfl) hback
      have hred := h.1.resolve_left (by rw [hclean]; exact Bool.false_ne_true)
      refine ⟨⟨redundant_congr (fun α => (hsame α).symm) hred, hsup⟩, fun α => ?_⟩
      have hα := hsame α
      rw [models_append_iff, models_append_iff] at hα
      rw [hcons, models_append_iff, clauses, List.map_cons, models_cons]
      rw [clauses] at hα
      tauto

end Weakened
end Foundations
