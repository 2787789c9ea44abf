import Zusat.Model.Extension
import Mathlib.Data.List.Induction

/-! # The extension stack as a list of clauses

Every loop over the vector of integers is a loop over the clauses that were pushed: zeros only stand where
`extend.cpp` puts them, because no literal is zero, and the places of the identifier are skipped by
position, so it does not matter that one of its halves may be zero. -/

namespace Zusat.Extension
open Foundations Foundations.Weakened
set_option autoImplicit false

/-- A clause on the stack. The witness is in the order in which `extend` makes it true, which is the
opposite of the order in which it was pushed. -/
abbrev Entry := Weakened ℤ

/-- The integers an entry takes. -/
def encode (e : Entry) : List ℤ :=
  0 :: e.witness.reverse ++ [0, higherBits e.tag, lowerBits e.tag, 0] ++ e.clause

def stack (es : List Entry) : List ℤ := es.flatMap encode

/-- No literal is zero. -/
def ZeroFree (e : Entry) : Prop := (0 : ℤ) ∉ e.witness ∧ (0 : ℤ) ∉ e.clause

theorem untilZero_append {ws : List ℤ} (h : (0 : ℤ) ∉ ws) (rest : List ℤ) :
    untilZero (ws ++ 0 :: rest) = some (ws, rest) := by
  induction ws with
  | nil => rfl
  | cons w ws ih =>
    have hw : w ≠ 0 := fun h0 => h (h0 ▸ List.mem_cons_self ..)
    rw [List.cons_append, untilZero, if_neg hw, ih fun hmem => h (List.mem_cons_of_mem w hmem)]
    rfl

theorem stack_append (es : List Entry) (e : Entry) : stack (es ++ [e]) = stack es ++ encode e := by
  simp [stack]

theorem stack_cons (e : Entry) (es : List Entry) : stack (e :: es) =
    0 :: (e.witness.reverse ++ 0 :: higherBits e.tag :: lowerBits e.tag :: 0 :: (e.clause ++ stack es)) := by
  simp [stack, encode]

theorem stack_reverse (es : List Entry) (e : Entry) : (stack (es ++ [e])).reverse =
    e.clause.reverse ++ 0 :: lowerBits e.tag :: higherBits e.tag :: 0 ::
      (e.witness ++ 0 :: (stack es).reverse) := by
  simp [stack_append, encode]

/-- The vector is empty or starts with the zero of an entry. -/
theorem stack_head (es : List Entry) : stack es = [] ∨ ∃ rest, stack es = 0 :: rest := by
  cases es with
  | nil => exact .inl rfl
  | cons e es => exact .inr ⟨_, stack_cons e es⟩

theorem length_le_stack (es : List Entry) : es.length ≤ (stack es).length := by
  induction es with
  | nil => exact Nat.le_refl _
  | cons e es ih =>
    rw [stack_cons]
    simp only [List.length_cons, List.length_append]
    omega

theorem takeWhile_clause {c : List ℤ} (hc : (0 : ℤ) ∉ c) (es : List Entry) :
    (c ++ stack es).takeWhile (· ≠ 0) = c ∧ (c ++ stack es).dropWhile (· ≠ 0) = stack es := by
  have hall : ∀ x ∈ c, decide (x ≠ 0) = true := fun x hx => decide_eq_true fun h0 => hc (h0 ▸ hx)
  rw [List.takeWhile_append_of_pos hall, List.dropWhile_append_of_pos hall]
  rcases stack_head es with h | ⟨rest, h⟩
  · rw [h]
    simp
  · rw [h]
    simp

/-! ## Pushing -/

theorem foldl_pushClauseLiteral (c : List ℤ) (s : Extension) :
    c.foldl (fun s lit => s.pushClauseLiteralOnExtensionStack lit) s =
      { s with extension := s.extension ++ c } := by
  induction c generalizing s with
  | nil => simp
  | cons x c ih =>
    rw [List.foldl_cons, ih]
    simp [pushClauseLiteralOnExtensionStack]

theorem foldl_pushWitnessLiteral (w : List ℤ) (s : Extension) :
    w.foldl (fun s lit => s.pushWitnessLiteralOnExtensionStack lit) s =
      { s with extension := s.extension ++ w, witness := w.foldl mark s.witness } := by
  induction w generalizing s with
  | nil => simp
  | cons x w ih =>
    rw [List.foldl_cons, ih]
    simp [pushWitnessLiteralOnExtensionStack]

theorem mem_mark {map : List ℤ} {l x : ℤ} : x ∈ mark map l ↔ x = l ∨ x ∈ map := by
  unfold mark
  split
  · next h =>
    rw [List.contains_iff_mem] at h
    exact ⟨.inr, fun hx => hx.elim (fun heq => heq ▸ h) id⟩
  · simp [or_comm]

theorem mem_foldl_mark {ls map : List ℤ} {x : ℤ} : x ∈ ls.foldl mark map ↔ x ∈ ls ∨ x ∈ map := by
  induction ls generalizing map with
  | nil => simp
  | cons l ls ih =>
    rw [List.foldl_cons, ih, mem_mark, List.mem_cons]
    tauto

/-- What every way to push a clause does. -/
def push (e : Entry) (s : Extension) : Extension :=
  { s with extension := s.extension ++ encode e, witness := e.witness.reverse.foldl mark s.witness }

theorem pushWitnessedClause_eq (w c : List ℤ) (id : ℤ) (s : Extension) :
    s.pushWitnessedClause w c id = s.push ⟨w.reverse, id, c⟩ := by
  rw [pushWitnessedClause, foldl_pushWitnessLiteral, pushClauseOnExtensionStack, foldl_pushClauseLiteral]
  simp [push, encode, pushZeroOnExtensionStack, pushIdOnExtensionStack]

theorem pushClauseWithPivot_eq (c : List ℤ) (id pivot : ℤ) (s : Extension) :
    s.pushClauseWithPivot c id pivot = s.push ⟨[pivot], id, c⟩ := pushWitnessedClause_eq [pivot] c id s

theorem pushBinaryClause_eq (id pivot other : ℤ) (s : Extension) :
    s.pushBinaryClauseOnExtensionStack id pivot other = s.push ⟨[pivot], id, [pivot, other]⟩ := by
  simp [pushBinaryClauseOnExtensionStack, push, encode, pushZeroOnExtensionStack, pushIdOnExtensionStack,
    pushWitnessLiteralOnExtensionStack, pushClauseLiteralOnExtensionStack]

theorem flip_eq {vals : Assignment} {l : ℤ} (hl : l ≠ 0) : flip vals l = makeTrue vals l := by
  unfold flip makeTrue
  by_cases hneg : l < 0
  · have hpos : ¬0 < l := by omega
    cases hv : vals l.natAbs <;> simp [holds, hneg, hpos, hv]
  · have hpos : 0 < l := by omega
    cases hv : vals l.natAbs <;> simp [holds, hneg, hpos, hv]

theorem foldl_flip {w : List ℤ} (hw : (0 : ℤ) ∉ w) (vals : Assignment) :
    w.foldl flip vals = makeAll vals w := by
  unfold makeAll
  induction w generalizing vals with
  | nil => rfl
  | cons x w ih =>
    have hx : x ≠ 0 := fun h0 => hw (h0 ▸ List.mem_cons_self ..)
    rw [List.foldl_cons, List.foldl_cons, flip_eq hx, ih fun h => hw (List.mem_cons_of_mem x h)]

theorem extendLoop_stack {es : List Entry} (hes : ∀ e ∈ es, ZeroFree e) {fuel : ℕ}
    (hfuel : es.length ≤ fuel) (vals : Assignment) :
    extendLoop fuel (stack es).reverse vals = some (reconstruct vals es) := by
  induction es using List.reverseRecOn generalizing fuel vals with
  | nil =>
    unfold extendLoop
    rfl
  | append_singleton es e ih =>
    obtain ⟨hw, hc⟩ := hes e (by simp)
    rw [List.length_append, List.length_singleton] at hfuel
    obtain ⟨fuel, rfl⟩ := Nat.exists_eq_add_of_le' (Nat.le_trans (Nat.le_add_left 1 _) hfuel)
    have hstep : extendLoop (fuel + 1) (stack (es ++ [e])).reverse vals =
        extendLoop fuel (stack es).reverse
          (if e.clause.reverse.any (holds vals) then vals else e.witness.foldl flip vals) := by
      have hne : (stack (es ++ [e])).reverse ≠ [] := by
        rw [stack_reverse]
        simp
      rw [extendLoop.eq_3 _ _ _ hne, stack_reverse, untilZero_append (by simpa using hc)]
      simp only [Option.bind_eq_bind, Option.bind_some, List.drop_succ_cons, List.drop_zero,
        untilZero_append hw]
    rw [hstep, ih (fun x hx => hes x (by simp [hx])) (by omega), reconstruct, reconstruct,
      List.foldr_append, List.any_reverse, foldl_flip hw]
    rfl

/-- `extend` repairs the clauses from the last one pushed to the first. -/
theorem extend_stack {s : Extension} {es : List Entry} (hs : s.extension = stack es)
    (hes : ∀ e ∈ es, ZeroFree e) (vals : Assignment) : s.extend vals = some (reconstruct vals es) := by
  rw [extend, hs]
  exact extendLoop_stack hes (length_le_stack es) vals

/-! ## Traversing -/

section Traverse
variable {σ : Type} (visit : σ → List ℤ → List ℤ → ℤ → Bool × σ)

end Traverse

section Restore
variable (fixed : List (List ℤ) → ℤ → Bool) (opts : RestoreOptions)

/-- A clause that is satisfied on the root level is flushed. -/
def flushed (F : List (List ℤ)) (C : List ℤ) : Bool := opts.restoreflush && C.any (fixed F)

theorem restoreLoop_stack (witness : List ℤ) {es : List Entry} (hes : ∀ e ∈ es, ZeroFree e) {fuel : ℕ}
    (hfuel : es.length ≤ fuel) (tainted : List ℤ) (F : List (List ℤ)) (kept : List ℤ) :
    restoreLoop fixed opts witness fuel (stack es) tainted F kept =
      some (kept ++ stack (restore (flushed fixed opts) (opts.restoreall ≠ 0) witness es tainted F).1,
        (restore (flushed fixed opts) (opts.restoreall ≠ 0) witness es tainted F).2) := by
  induction es generalizing fuel tainted F kept with
  | nil =>
    unfold restoreLoop
    simp [stack, restore]
  | cons e es ih =>
    obtain ⟨hw, hc⟩ := hes e (List.mem_cons_self ..)
    obtain ⟨fuel, rfl⟩ := Nat.exists_eq_add_of_lt hfuel
    obtain ⟨htake, hdrop⟩ := takeWhile_clause hc es
    have hrest : ∀ e ∈ es, ZeroFree e := fun x hx => hes x (List.mem_cons_of_mem e hx)
    have hdirty : (e.witness.reverse.any fun x => tainted.contains (-x)) = dirty tainted e := List.any_reverse
    rw [stack_cons, restoreLoop, untilZero_append (by simpa using hw)]
    simp only [Option.bind_eq_bind, Option.bind_some, htake, hdrop, hdirty]
    rw [restore]
    simp only [flushed]
    split_ifs with hflush hback
    · exact ih hrest (by omega) tainted F kept
    · exact ih hrest (by omega) _ _ kept
    · rw [ih hrest (by omega)]
      simp [stack_cons]

theorem witnessLoop_stack {es : List Entry} (hes : ∀ e ∈ es, ZeroFree e) {fuel : ℕ}
    (hfuel : es.length ≤ fuel) (map : List ℤ) : ∃ map', witnessLoop fuel (stack es).reverse map = some map' ∧
      ∀ x, x ∈ map' ↔ x ∈ map ∨ ∃ e ∈ es, x ∈ e.witness := by
  induction es using List.reverseRecOn generalizing fuel map with
  | nil => exact ⟨map, by unfold witnessLoop; rfl, by simp⟩
  | append_singleton es e ih =>
    obtain ⟨hw, hc⟩ := hes e (by simp)
    rw [List.length_append, List.length_singleton] at hfuel
    obtain ⟨fuel, rfl⟩ := Nat.exists_eq_add_of_le' (Nat.le_trans (Nat.le_add_left 1 _) hfuel)
    have hne : (stack (es ++ [e])).reverse ≠ [] := by
      rw [stack_reverse]
      simp
    obtain ⟨map', hrun, hmem⟩ := ih (fun x hx => hes x (by simp [hx])) (show es.length ≤ fuel by omega)
      (e.witness.foldl mark map)
    refine ⟨map', ?_, fun x => ?_⟩
    · rw [witnessLoop.eq_3 _ _ _ hne, stack_reverse, untilZero_append (by simpa using hc)]
      simp only [Option.bind_eq_bind, Option.bind_some, List.drop_succ_cons, List.drop_zero,
        untilZero_append hw]
      exact hrun
    · rw [hmem, mem_foldl_mark]
      simp only [List.mem_append, List.mem_singleton]
      constructor
      · rintro ((hx | hx) | ⟨e', he', hx⟩)
        · exact .inr ⟨e, .inr rfl, hx⟩
        · exact .inl hx
        · exact .inr ⟨e', .inl he', hx⟩
      · rintro (hx | ⟨e', he' | rfl, hx⟩)
        · exact .inl (.inr hx)
        · exact .inr ⟨e', he', hx⟩
        · exact .inl (.inl hx)

/-- `restore_clauses` is one pass over the clauses. -/
theorem restoreClauses_stack {s : Extension} {es : List Entry} (hs : s.extension = stack es)
    (hes : ∀ e ∈ es, ZeroFree e) (F : List (List ℤ)) :
    let r := restore (flushed fixed opts) (opts.restoreall ≠ 0) s.witness es s.tainted F
    ∃ map, s.restoreClauses fixed opts F = some (⟨stack r.1, map, []⟩, r.2) ∧
      ∀ x, x ∈ map ↔ ∃ e ∈ r.1, x ∈ e.witness := by
  intro r
  have hkept : ∀ e ∈ r.1, ZeroFree e := fun e he => hes e (restore_sublist.subset he)
  obtain ⟨map, hmap, hmem⟩ := witnessLoop_stack hkept (length_le_stack r.1) []
  refine ⟨map, ?_, fun x => (hmem x).trans (by simp)⟩
  rw [restoreClauses, hs, restoreLoop_stack fixed opts s.witness hes (length_le_stack es)]
  simp only [Option.bind_eq_bind, Option.bind_some, List.nil_append]
  rw [show stack r.1 = stack (restore (flushed fixed opts) (opts.restoreall ≠ 0) s.witness es s.tainted F).1
    from rfl] at hmap
  rw [hmap]
  rfl

end Restore
end Zusat.Extension
