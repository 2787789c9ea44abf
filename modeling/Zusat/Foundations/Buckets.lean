import Mathlib.Data.List.GetD
import Mathlib.Order.Nat
import Mathlib.Tactic.Common

/-! # Hash tables with collision chains

A table is a list of chains. What a table holds is the concatenation of its chains, up to order; where an
element goes is said by an index function, and in a table in which everything is where it belongs one chain
is enough to search.

* `push`, `rehash` and `unlink` are the three ways to change a table, with what they do to its content.
* `find_eq_none_iff`: a search of one chain is a search of the whole table. -/

namespace Foundations.Buckets
set_option autoImplicit false

variable {α : Type}

/-- Put an element at the head of a chain. -/
def push (t : List (List α)) (i : ℕ) (a : α) : List (List α) := t.modify i (a :: ·)

/-- Distribute elements over `n` empty chains, one after the other. -/
def rehash (index : α → ℕ) (n : ℕ) (as : List α) : List (List α) :=
  as.foldl (fun t a => push t (index a) a) (List.replicate n [])

/-- The first element of a chain that passes a test. -/
def find (t : List (List α)) (i : ℕ) (p : α → Bool) : Option α := (t.getD i []).find? p

/-- Take that element out of its chain. -/
def unlink (t : List (List α)) (i : ℕ) (p : α → Bool) : List (List α) := t.modify i (·.eraseP p)

/-- Every element is in the chain it belongs to. -/
def Placed (index : α → ℕ) (t : List (List α)) : Prop := ∀ i, ∀ a ∈ t.getD i [], index a = i

/-! ## Content -/

@[simp] theorem length_push (t : List (List α)) (i : ℕ) (a : α) : (push t i a).length = t.length :=
  List.length_modify ..

@[simp] theorem length_unlink (t : List (List α)) (i : ℕ) (p : α → Bool) :
    (unlink t i p).length = t.length := List.length_modify ..

theorem flatten_push {t : List (List α)} {i : ℕ} (hi : i < t.length) (a : α) :
    ((push t i a).flatten).Perm (a :: t.flatten) := by
  obtain ⟨t₁, b, t₂, ht, -, hpush⟩ := List.exists_of_modify (a :: ·) hi
  rw [push, hpush, ht, List.flatten_append, List.flatten_append, List.flatten_cons, List.flatten_cons,
    List.cons_append]
  exact List.perm_middle

theorem flatten_unlink {t : List (List α)} {i : ℕ} {p : α → Bool} {a : α} (h : find t i p = some a) :
    t.flatten.Perm (a :: (unlink t i p).flatten) := by
  have hi : i < t.length := by
    by_contra hge
    rw [find, List.getD_eq_default _ _ (not_lt.mp hge)] at h
    cases h
  obtain ⟨t₁, b, t₂, ht, hlen, hmod⟩ := List.exists_of_modify (·.eraseP p) hi
  have hb : t.getD i [] = b := by
    rw [List.getD_eq_getElem?_getD, ht, List.getElem?_append_right hlen.le, hlen, Nat.sub_self]
    rfl
  rw [find, hb] at h
  obtain ⟨hp, as, bs, rfl, has⟩ := List.find?_eq_some_iff_append.mp h
  have herase : (as ++ a :: bs).eraseP p = as ++ bs := by
    rw [List.eraseP_append_right _ fun x hx => by simpa using has x hx, List.eraseP_cons_of_pos hp]
  rw [unlink, hmod, ht, List.flatten_append, List.flatten_append, List.flatten_cons, List.flatten_cons,
    herase, List.append_assoc, List.append_assoc, List.cons_append]
  exact (List.Perm.append_left _ List.perm_middle).trans List.perm_middle

/-! ## Places -/

section Index
variable {index : α → ℕ}

theorem Placed.mem {t : List (List α)} (ht : Placed index t) {a : α} (ha : a ∈ t.flatten) :
    a ∈ t.getD (index a) [] := by
  obtain ⟨b, hb, hab⟩ := List.mem_flatten.mp ha
  obtain ⟨i, hi, rfl⟩ := List.getElem_of_mem hb
  have hget : t.getD i [] = t[i] := List.getD_eq_getElem _ _ hi
  rw [ht i a (hget ▸ hab), hget]
  exact hab

theorem mem_flatten_of_getD {t : List (List α)} {i : ℕ} {a : α} (ha : a ∈ t.getD i []) :
    a ∈ t.flatten := by
  by_cases hi : i < t.length
  · rw [List.getD_eq_getElem _ _ hi] at ha
    exact List.mem_flatten.mpr ⟨_, List.getElem_mem hi, ha⟩
  · rw [List.getD_eq_default _ _ (not_lt.mp hi)] at ha
    cases ha

theorem placed_replicate (n : ℕ) : Placed index (List.replicate n []) := by
  intro i a ha
  have hnil := mem_flatten_of_getD ha
  simp at hnil

theorem getD_modify (t : List (List α)) (f : List α → List α) (hf : f [] = []) (i j : ℕ) :
    (t.modify i f).getD j [] = if i = j then f (t.getD j []) else t.getD j [] := by
  rw [List.getD_eq_getElem?_getD, List.getD_eq_getElem?_getD, List.getElem?_modify]
  split
  · cases t[j]? with
    | none => exact hf.symm
    | some b => rfl
  · cases t[j]? <;> rfl

theorem getD_push {t : List (List α)} {i : ℕ} (hi : i < t.length) (a : α) (j : ℕ) :
    (push t i a).getD j [] = if i = j then a :: t.getD j [] else t.getD j [] := by
  rw [push, List.getD_eq_getElem?_getD, List.getD_eq_getElem?_getD, List.getElem?_modify]
  split
  · next h =>
    subst h
    rw [List.getElem?_eq_getElem hi]
    rfl
  · cases t[j]? <;> rfl

theorem Placed.congr {index' : α → ℕ} {t : List (List α)} (ht : Placed index t)
    (h : ∀ a ∈ t.flatten, index' a = index a) : Placed index' t := fun i a ha =>
  (h a (mem_flatten_of_getD ha)).trans (ht i a ha)

theorem Placed.filter {t : List (List α)} (ht : Placed index t) (p : α → Bool) :
    Placed index (t.map fun chain => chain.filter p) := by
  intro i a ha
  rw [List.getD_eq_getElem?_getD, List.getElem?_map] at ha
  cases hi : t[i]? with
  | none =>
    rw [hi] at ha
    cases ha
  | some chain =>
    rw [hi] at ha
    refine ht i a ?_
    rw [List.getD_eq_getElem?_getD, hi]
    exact (List.mem_filter.mp ha).1

theorem Placed.push {t : List (List α)} (ht : Placed index t) {a : α} (hi : index a < t.length) :
    Placed index (push t (index a) a) := by
  intro j b hb
  rw [getD_push hi] at hb
  split at hb
  · next h =>
    rcases List.mem_cons.mp hb with rfl | hb
    · exact h
    · exact ht j b hb
  · exact ht j b hb

theorem Placed.unlink {t : List (List α)} (ht : Placed index t) (i : ℕ) (p : α → Bool) :
    Placed index (unlink t i p) := by
  intro j b hb
  rw [Buckets.unlink, getD_modify _ _ rfl] at hb
  split at hb
  · exact ht j b (List.mem_of_mem_eraseP hb)
  · exact ht j b hb

theorem foldl_push {as : List α} {t : List (List α)} (h : ∀ a ∈ as, index a < t.length)
    (ht : Placed index t) :
    (as.foldl (fun t a => Buckets.push t (index a) a) t).length = t.length ∧
      ((as.foldl (fun t a => Buckets.push t (index a) a) t).flatten).Perm (as ++ t.flatten) ∧
      Placed index (as.foldl (fun t a => Buckets.push t (index a) a) t) := by
  induction as generalizing t with
  | nil => exact ⟨rfl, .rfl, ht⟩
  | cons a as ih =>
    have ha := h a (List.mem_cons_self ..)
    obtain ⟨hlen, hperm, hplaced⟩ := ih (t := Buckets.push t (index a) a)
      (fun b hb => by rw [length_push]; exact h b (List.mem_cons_of_mem a hb)) (ht.push ha)
    refine ⟨hlen.trans (length_push ..), ?_, hplaced⟩
    exact (hperm.trans (List.Perm.append_left _ (flatten_push ha a))).trans List.perm_middle

theorem rehash_spec {n : ℕ} {as : List α} (h : ∀ a ∈ as, index a < n) :
    (rehash index n as).length = n ∧ ((rehash index n as).flatten).Perm as ∧
      Placed index (rehash index n as) := by
  have hlen : (List.replicate n ([] : List α)).length = n := List.length_replicate
  obtain ⟨hl, hp, hplaced⟩ := foldl_push (t := List.replicate n []) (by rwa [hlen]) (placed_replicate n)
  refine ⟨hl.trans hlen, ?_, hplaced⟩
  have hnil : (List.replicate n ([] : List α)).flatten = [] := by simp
  rwa [hnil, List.append_nil] at hp

/-! ## Searching -/

theorem find_mem {t : List (List α)} {i : ℕ} {p : α → Bool} {a : α} (h : find t i p = some a) :
    a ∈ t.flatten ∧ p a = true :=
  ⟨mem_flatten_of_getD (List.mem_of_find?_eq_some h), List.find?_some h⟩

/-- A chain holds everything that belongs there, so a test that only such elements pass need not look at
the others. -/
theorem find_eq_none_iff {t : List (List α)} (ht : Placed index t) {i : ℕ} {p : α → Bool}
    (hp : ∀ a ∈ t.flatten, p a = true → index a = i) :
    find t i p = none ↔ ∀ a ∈ t.flatten, p a = false := by
  rw [find, List.find?_eq_none]
  constructor
  · intro h a ha
    cases hpa : p a with
    | false => rfl
    | true =>
      have hmem := ht.mem ha
      rw [hp a ha hpa] at hmem
      exact absurd hpa (h a hmem)
  · intro h a ha
    rw [h a (mem_flatten_of_getD ha)]
    exact Bool.false_ne_true

end Index
end Foundations.Buckets
