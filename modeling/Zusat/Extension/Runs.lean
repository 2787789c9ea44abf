import Zusat.Extension.Stack

/-! # Incremental solving with clauses set aside

Between two searches the user adds clauses and assumptions; before a search `restore_clauses` moves back what
they have made unsafe; during a search the internal solver rewrites its clauses into equivalent ones and sets
redundant ones aside. In every state without tainted literals a model of the internal clauses is extended to
a model of all clauses the user has added.

What the internal solver does to its own clauses is not modelled: a run is legal when each of its steps keeps
the models, or sets aside a clause with a witness for its redundancy. -/

namespace Zusat.Extension
open Foundations Foundations.Weakened
set_option autoImplicit false

/-- The extension stack, the clauses of the internal solver, and the clauses the user has added. -/
structure Incremental where
  stack : Extension
  formula : List (List ℤ)
  originals : List (List ℤ)
  deriving DecidableEq

inductive Event
  /-- The user adds a clause. -/
  | add (c : List ℤ)
  /-- The user makes an assumption. -/
  | assume (lit : ℤ)
  /-- A search begins. -/
  | restore
  /-- The internal solver replaces its clauses. -/
  | rewrite (G : List (List ℤ))
  /-- The internal solver sets the clause `c` aside and keeps `G`. -/
  | weaken (w c : List ℤ) (id : ℤ) (G : List (List ℤ))
  /-- The same with one literal as the witness. -/
  | weakenPivot (c : List ℤ) (id pivot : ℤ) (G : List (List ℤ))
  /-- The same with a clause of two literals, the first of which is the witness. -/
  | weakenBinary (id pivot other : ℤ) (G : List (List ℤ))
  deriving DecidableEq

/-- The clause an event sets aside, with its witness and its identifier. -/
def Event.setAside : Event → List Entry
  | .weaken w c id _ => [⟨w.reverse, id, c⟩]
  | .weakenPivot c id pivot _ => [⟨[pivot], id, c⟩]
  | .weakenBinary id pivot other _ => [⟨[pivot], id, [pivot, other]⟩]
  | _ => []

/-- What the internal solver owes when it sets a clause aside. -/
def SetsAside (F G : List (List ℤ)) (e : Entry) : Prop :=
  ZeroFree e ∧ (∀ α, models α F = true ↔ models α (e.clause :: G) = true) ∧
    Redundant G e.clause e.witness

namespace Incremental

/-- The clauses that are set aside, in the order in which they are. -/
def setAside (events : List Event) : List Entry := events.flatMap Event.setAside

def start : Incremental := ⟨Extension.new, [], []⟩

/-- What the internal solver owes. -/
def Legal (m : Incremental) : Event → Prop
  | .add c => (0 : ℤ) ∉ c
  | .assume _ => True
  | .restore => True
  | .rewrite G => ∀ α, models α m.formula = true ↔ models α G = true
  | .weaken w c id G => SetsAside m.formula G ⟨w.reverse, id, c⟩
  | .weakenPivot c id pivot G => SetsAside m.formula G ⟨[pivot], id, c⟩
  | .weakenBinary id pivot other G => SetsAside m.formula G ⟨[pivot], id, [pivot, other]⟩

variable (fixed : List (List ℤ) → ℤ → Bool) (opts : RestoreOptions)

def next (m : Incremental) : Event → Option Incremental
  | .add c => some { m with
      stack := m.stack.internalize c, formula := m.formula ++ [c], originals := m.originals ++ [c] }
  | .assume lit => some { m with stack := m.stack.internalize [lit] }
  | .restore => (m.stack.internalRestoreClauses fixed opts m.formula).map fun r =>
      { m with stack := r.1, formula := r.2 }
  | .rewrite G => some { m with formula := G }
  | .weaken w c id G => some { m with stack := m.stack.pushWitnessedClause w c id, formula := G }
  | .weakenPivot c id pivot G =>
    some { m with stack := m.stack.pushClauseWithPivot c id pivot, formula := G }
  | .weakenBinary id pivot other G =>
    some { m with stack := m.stack.pushBinaryClauseOnExtensionStack id pivot other, formula := G }

def run (m : Incremental) : List Event → Option Incremental
  | [] => some m
  | e :: es => (m.next fixed opts e).bind fun m' => run m' es

def LegalRun (m : Incremental) : List Event → Prop
  | [] => True
  | e :: es => Legal m e ∧ ∀ m', m.next fixed opts e = some m' → LegalRun m' es

/-! ## The invariant -/

/-- The clauses on the stack, and what they are to the formula. -/
structure Holds (m : Incremental) (es : List Entry) : Prop where
  extension : m.stack.extension = Extension.stack es
  zeroFree : ∀ e ∈ es, ZeroFree e
  marked : ∀ e ∈ es, ∀ x ∈ e.witness, x ∈ m.stack.witness
  guarded : Guarded m.formula m.stack.tainted es
  same : ∀ α, models α (m.formula ++ clauses es) = true ↔ models α m.originals = true

theorem holds_start : Holds start [] :=
  ⟨rfl, by simp, by simp, trivial, fun α => Iff.rfl⟩

section Steps
variable {m : Incremental} {es : List Entry}

/-- A new clause taints what it makes unsafe. -/
theorem Holds.add (h : Holds m es) (c : List ℤ) : Holds { m with
    stack := m.stack.internalize c, formula := m.formula ++ [c], originals := m.originals ++ [c] } es := by
  refine ⟨h.extension, h.zeroFree, h.marked, ?_, fun α => ?_⟩
  · refine (h.guarded.taint (subset_taint m.stack.witness m.stack.tainted c)).add fun e he l hl hw => ?_
    exact mem_taint hl (h.marked e he _ hw)
  · have hα := h.same α
    rw [models_append_iff] at hα
    rw [models_append_iff, models_append_iff, models_append_iff, ← hα, models_singleton]
    tauto

theorem Holds.assume (h : Holds m es) (lit : ℤ) :
    Holds { m with stack := m.stack.internalize [lit] } es :=
  ⟨h.extension, h.zeroFree, h.marked, h.guarded.taint (subset_taint _ _ _), h.same⟩

theorem Holds.rewrite (h : Holds m es) {G : List (List ℤ)}
    (hG : ∀ α, models α m.formula = true ↔ models α G = true) : Holds { m with formula := G } es := by
  refine ⟨h.extension, h.zeroFree, h.marked, h.guarded.congr hG, fun α => ?_⟩
  rw [← h.same α]
  exact (models_append_congr hG _ α).symm

theorem Holds.weaken (h : Holds m es) {e : Entry} {G : List (List ℤ)} (he : SetsAside m.formula G e) :
    Holds { m with stack := m.stack.push e, formula := G } (es ++ [e]) := by
  obtain ⟨hzero, hG, hred⟩ := he
  have hclauses : clauses (es ++ [e]) = clauses es ++ [e.clause] := by simp [clauses]
  refine ⟨?_, ?_, ?_, ?_, fun α => ?_⟩
  · rw [stack_append, ← h.extension]
    rfl
  · intro x hx
    rcases List.mem_append.mp hx with hx | hx
    · exact h.zeroFree x hx
    · rwa [List.mem_singleton.mp hx]
  · intro x hx l hl
    rw [push, mem_foldl_mark]
    rcases List.mem_append.mp hx with hx | hx
    · exact .inr (h.marked x hx l hl)
    · rw [List.mem_singleton.mp hx] at hl
      exact .inl (by simpa using hl)
  · exact h.guarded.push hG rfl hred
  · rw [← h.same α, hclauses, models_append_iff, models_append_iff, models_append_iff, hG, models_singleton,
      models_cons]
    tauto

/-- What is kept, restored or flushed before a search. -/
theorem Holds.restore (h : Holds m es)
    (hfixed : ∀ F l, fixed F l = true → ∀ α, models α F = true → holds α l = true) :
    ∃ m' es', m.next fixed opts .restore = some m' ∧ Holds m' es' ∧ es'.Sublist es := by
  rw [next, internalRestoreClauses]
  split
  · exact ⟨m, es, rfl, h, List.Sublist.refl es⟩
  · have himplied : ∀ F C, flushed fixed opts F C = true → ∀ α, models α F = true → satisfies α C = true := by
      intro F C hflush α hα
      obtain ⟨l, hl, htrue⟩ := List.any_eq_true.mp (Bool.and_eq_true_iff.mp hflush).2
      exact satisfies_iff.mpr ⟨l, hl, hfixed F l htrue α hα⟩
    obtain ⟨map, hrun, hmap⟩ := restoreClauses_stack fixed opts h.extension h.zeroFree m.formula
    obtain ⟨hsupported, hsame⟩ := restore_sound himplied h.marked h.guarded
    rw [hrun]
    refine ⟨_, _, rfl, ⟨rfl, fun e he => h.zeroFree e (restore_sublist.subset he), ?_, ?_, ?_⟩,
      restore_sublist⟩
    · exact fun e he x hx => (hmap x).mpr ⟨e, he, hx⟩
    · exact hsupported.guarded []
    · exact fun α => (hsame α).trans (h.same α)

/-- A step sets aside at most its own clause, and only `restore_clauses` takes clauses off the stack. -/
theorem Holds.next (h : Holds m es)
    (hfixed : ∀ F l, fixed F l = true → ∀ α, models α F = true → holds α l = true) {e : Event}
    (he : Legal m e) : ∃ m' es', m.next fixed opts e = some m' ∧ Holds m' es' ∧
      es'.Sublist (es ++ e.setAside) ∧ (e ≠ .restore → es' = es ++ e.setAside) := by
  have hkept : ∀ xs : List Entry, xs.Sublist (xs ++ []) ∧ (e ≠ .restore → xs = xs ++ []) := by simp
  cases e with
  | add c => exact ⟨_, _, rfl, h.add c, hkept es⟩
  | assume lit => exact ⟨_, _, rfl, h.assume lit, hkept es⟩
  | restore =>
    obtain ⟨m', es', hrun, h', hsub⟩ := h.restore fixed opts hfixed
    exact ⟨m', es', hrun, h', hsub.trans (List.sublist_append_left _ _), fun hne => absurd rfl hne⟩
  | rewrite G => exact ⟨_, _, rfl, h.rewrite he, hkept es⟩
  | weaken w c id G =>
    rw [Incremental.next, pushWitnessedClause_eq]
    exact ⟨_, _, rfl, h.weaken he, List.Sublist.refl _, fun _ => rfl⟩
  | weakenPivot c id pivot G =>
    rw [Incremental.next, pushClauseWithPivot_eq]
    exact ⟨_, _, rfl, h.weaken he, List.Sublist.refl _, fun _ => rfl⟩
  | weakenBinary id pivot other G =>
    rw [Incremental.next, pushBinaryClause_eq]
    exact ⟨_, _, rfl, h.weaken he, List.Sublist.refl _, fun _ => rfl⟩

theorem Holds.run (h : Holds m es)
    (hfixed : ∀ F l, fixed F l = true → ∀ α, models α F = true → holds α l = true) {events : List Event}
    (hlegal : LegalRun fixed opts m events) : ∃ m' es', m.run fixed opts events = some m' ∧ Holds m' es' ∧
      es'.Sublist (es ++ setAside events) ∧
      (Event.restore ∉ events → es' = es ++ setAside events) ∧
      ∀ before later, events = before ++ later → Event.restore ∉ later → setAside later <:+ es' := by
  induction events generalizing m es with
  | nil =>
    refine ⟨m, es, rfl, h, by simp [setAside], by simp [setAside], fun before later hsplit _ => ?_⟩
    rw [(List.append_eq_nil_iff.mp hsplit.symm).2]
    exact List.nil_suffix
  | cons e events ih =>
    obtain ⟨m₁, es₁, hnext, h₁, hsub₁, heq₁⟩ := h.next fixed opts hfixed hlegal.1
    obtain ⟨m', es', hrun, h', hsub, heq, hsuffix⟩ := ih h₁ (hlegal.2 m₁ hnext)
    have hall : Event.restore ∉ e :: events → es' = es ++ setAside (e :: events) := by
      intro hnone
      rw [List.mem_cons, not_or] at hnone
      rw [heq hnone.2, heq₁ (Ne.symm hnone.1), List.append_assoc]
      rfl
    refine ⟨m', es', by rw [Incremental.run, hnext]; exact hrun, h', ?_, hall, ?_⟩
    · have hboth := hsub.trans (hsub₁.append_right (setAside events))
      rwa [List.append_assoc] at hboth
    · intro before later hsplit hnone
      cases before with
      | nil =>
        rw [List.nil_append] at hsplit
        rw [← hsplit] at hnone ⊢
        exact ⟨es, (hall hnone).symm⟩
      | cons x before => exact hsuffix before later (List.cons.inj hsplit).2 hnone

end Steps

/-! ## Whole runs -/

/-- No loop of a legal run leaves the vector, and where no literal is tainted every model of the internal
clauses is extended to a model of all original ones; they have no model when the internal ones have none. -/
theorem extend_after_run
    (hfixed : ∀ F l, fixed F l = true → ∀ α, models α F = true → holds α l = true) (events : List Event)
    (hlegal : LegalRun fixed opts start events) :
    ∃ m, start.run fixed opts events = some m ∧ (m.stack.tainted = [] → ∀ α, models α m.formula = true →
        ∃ β, m.stack.extend α = some β ∧ models β m.originals = true) ∧
      ((∀ α, models α m.formula = false) → ∀ α, models α m.originals = false) := by
  obtain ⟨m, es, hrun, h, -⟩ := holds_start.run fixed opts hfixed hlegal
  refine ⟨m, hrun, fun hclean α hα => ?_, fun hnone α => ?_⟩
  · have hsupported : Supported m.formula es := (hclean ▸ h.guarded).supported
    exact ⟨reconstruct α es, extend_stack h.extension h.zeroFree α,
      (h.same _).mp (models_reconstruct hsupported hα)⟩
  · cases hα : models α m.originals with
    | false => rfl
    | true =>
      have hF := (models_append_iff.mp ((h.same α).mpr hα)).1
      rw [hnone α] at hF
      cases hF

/-- Literals of unit clauses, for a run in which nothing else is found on the root level. -/
def unitLiterals (F : List (List ℤ)) (l : ℤ) : Bool := F.contains [l]

theorem unitLiterals_sound (F : List (List ℤ)) (l : ℤ) (h : unitLiterals F l = true) (α : Assignment)
    (hα : models α F = true) : holds α l = true := by
  have hsat := models_iff.mp hα [l] (List.contains_iff_mem.mp h)
  rwa [satisfies, List.any_cons, List.any_nil, Bool.or_false] at hsat

/-- Two clauses set aside, the first of them restored because a later clause falsifies its witness. -/
def restoringRun : List Event :=
  [.add [1, 2], .add [-2, 3], .weaken [1] [1, 2] 7 [[-2, 3]], .add [-1, 3], .restore,
    .weakenBinary 8 3 (-2) [[-1, 3], [1, 2]]]

theorem legal_restoringRun : LegalRun unitLiterals ⟨0, true⟩ start restoringRun := by
  have hfirst : Redundant [[-2, 3]] [1, 2] [1] :=
    Blocked.redundant ⟨by decide, by decide⟩ (by decide) (by decide)
  have hsecond : Redundant [[-1, 3], [1, 2]] [3, -2] [3] :=
    Blocked.redundant ⟨by decide, by decide⟩ (by decide) (by decide)
  refine ⟨by simp [Legal], fun m h => ?_⟩
  cases h
  refine ⟨by simp [Legal], fun m h => ?_⟩
  cases h
  refine ⟨⟨⟨by decide, by decide⟩, fun α => ?_, hfirst⟩, fun m h => ?_⟩
  · exact Iff.rfl
  cases h
  refine ⟨by simp [Legal], fun m h => ?_⟩
  cases h
  refine ⟨trivial, fun m h => ?_⟩
  cases h
  refine ⟨⟨⟨by decide, by decide⟩, fun α => ?_, hsecond⟩, fun m h => trivial⟩
  simp [models, satisfies, Bool.and_comm, Bool.or_comm]

theorem extend_after_restoringRun : ∃ m, start.run unitLiterals ⟨0, true⟩ restoringRun = some m ∧
    (m.stack.tainted = [] → ∀ α, models α m.formula = true →
      ∃ β, m.stack.extend α = some β ∧ models β m.originals = true) ∧
    ((∀ α, models α m.formula = false) → ∀ α, models α m.originals = false) :=
  extend_after_run unitLiterals ⟨0, true⟩ unitLiterals_sound restoringRun legal_restoringRun

end Incremental
end Zusat.Extension
