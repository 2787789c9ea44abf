import Mathlib.Data.List.Basic
import Mathlib.Data.List.Flatten
import Mathlib.Tactic.Common

/-! # Words and terminated blocks

`words` are what is left of a list between its blank elements; joining lists by a blank puts their words
one after the other. `terminated t` writes blocks one after the other, each followed by `t`; blocks
that do not contain `t` can be read back in one way only, and `blocks` reads them. -/

namespace Foundations
set_option autoImplicit false

variable {α : Type}

/-! ## Words -/

section Words
variable (blank : α → Bool)

def words (xs : List α) : List (List α) := (xs.splitOnP blank).filter fun w => !w.isEmpty

variable {blank}

theorem words_append_cons {s : α} (hs : blank s = true) (xs ys : List α) :
    words blank (xs ++ s :: ys) = words blank xs ++ words blank ys := by
  rw [words, List.splitOnP_append_cons xs ys hs, List.filter_append, words, words]

theorem words_single {xs : List α} (hne : xs ≠ []) (h : ∀ x ∈ xs, blank x = false) :
    words blank xs = [xs] := by
  rw [words, List.splitOnP_eq_singleton h, List.filter_cons_of_pos (by simpa using hne),
    List.filter_nil]

theorem words_intercalate {s : α} (hs : blank s = true) (xss : List (List α)) :
    words blank ([s].intercalate xss) = xss.flatMap (words blank) := by
  induction xss with
  | nil => rfl
  | cons xs xss ih =>
    cases xss with
    | nil => simp [List.intercalate]
    | cons ys yss =>
      rw [List.intercalate_cons_cons, List.append_assoc, List.singleton_append,
        words_append_cons hs, ih]
      rfl

/-- Words joined by a blank are the words of the result. -/
theorem words_join {s : α} (hs : blank s = true) {ws : List (List α)}
    (hws : ∀ w ∈ ws, w ≠ [] ∧ ∀ x ∈ w, blank x = false) : words blank ([s].intercalate ws) = ws := by
  rw [words_intercalate hs]
  induction ws with
  | nil => rfl
  | cons w ws ih =>
    obtain ⟨hne, hw⟩ := hws w (List.mem_cons_self ..)
    rw [List.flatMap_cons, words_single hne hw, ih fun v hv => hws v (List.mem_cons_of_mem w hv)]
    rfl

end Words

/-! ## Terminated blocks -/

/-- The blocks one after the other, each with its terminator. -/
def terminated (t : α) (blocks : List (List α)) : List α := blocks.flatMap (· ++ [t])

theorem terminated_cons (t : α) (b : List α) (bs : List (List α)) :
    terminated t (b :: bs) = b ++ t :: terminated t bs := by
  rw [terminated, List.flatMap_cons, List.append_assoc, List.singleton_append, terminated]

section Blocks
variable [DecidableEq α]

/-- The list with a terminator at its end, unless it is empty or has one. -/
def closed (t : α) (xs : List α) : List α :=
  if xs = [] ∨ xs.getLast? = some t then xs else xs ++ [t]

/-- Read blocks; the last one may lack its terminator. -/
def blocks (t : α) : List α → List (List α)
  | [] => []
  | x :: xs =>
    if x = t then [] :: blocks t xs
    else match blocks t xs with
      | [] => [[x]]
      | b :: bs => (x :: b) :: bs

theorem blocks_eq_nil {t : α} {xs : List α} : blocks t xs = [] ↔ xs = [] := by
  cases xs with
  | nil => exact ⟨fun _ => rfl, fun _ => rfl⟩
  | cons x xs =>
    refine ⟨fun h => ?_, fun h => nomatch h⟩
    rw [blocks] at h
    split_ifs at h
    split at h <;> cases h

theorem blocks_append_cons {t : α} {b : List α} (hb : t ∉ b) (xs : List α) :
    blocks t (b ++ t :: xs) = b :: blocks t xs := by
  induction b with
  | nil => rw [List.nil_append, blocks, if_pos rfl]
  | cons x b ih =>
    obtain ⟨hx, hb⟩ := not_or.mp (mt List.mem_cons.mpr hb)
    rw [List.cons_append, blocks, if_neg (Ne.symm hx), ih hb]

theorem blocks_of_not_mem {t : α} {b : List α} (hb : t ∉ b) (hne : b ≠ []) : blocks t b = [b] := by
  induction b with
  | nil => exact absurd rfl hne
  | cons x b ih =>
    obtain ⟨hx, hb⟩ := not_or.mp (mt List.mem_cons.mpr hb)
    rw [blocks, if_neg (Ne.symm hx)]
    by_cases hnil : b = []
    · rw [hnil]
      rfl
    · rw [ih hb hnil]

/-- Blocks without the terminator are read back as they were written. -/
theorem blocks_terminated {t : α} {bs : List (List α)} (hb : ∀ b ∈ bs, t ∉ b) :
    blocks t (terminated t bs) = bs := by
  induction bs with
  | nil => rfl
  | cons b bs ih =>
    rw [terminated_cons, blocks_append_cons (hb b (List.mem_cons_self ..)),
      ih fun c hc => hb c (List.mem_cons_of_mem b hc)]

theorem terminated_injective {t : α} {bs cs : List (List α)} (hb : ∀ b ∈ bs, t ∉ b)
    (hc : ∀ c ∈ cs, t ∉ c) (h : terminated t bs = terminated t cs) : bs = cs := by
  rw [← blocks_terminated hb, h, blocks_terminated hc]

end Blocks

end Foundations
