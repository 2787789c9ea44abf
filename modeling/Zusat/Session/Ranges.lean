import Zusat.Model.Solver

/-! # The check against auxiliary variables

`check_not_aux` looks a variable up by bisection on the starts of the recorded ranges. On disjoint
ranges in increasing order this decides membership in any of them. -/

namespace Zusat
open Foundations
set_option autoImplicit false

namespace Session

/-- The variable belongs to a recorded range. -/
def InAux (aux : List AuxRange) (v : ℕ) : Prop := ∃ r ∈ aux, r.first ≤ v ∧ v ≤ r.last

instance (aux : List AuxRange) (v : ℕ) : Decidable (InAux aux v) :=
  inferInstanceAs (Decidable (∃ r ∈ aux, _))

/-- Disjoint ranges in increasing order. -/
def Increasing (aux : List AuxRange) : Prop := aux.Pairwise fun a b => a.last < b.first

theorem Increasing.starts {aux : List AuxRange} (h : Increasing aux) :
    (aux.map AuxRange.first).Pairwise (· ≤ ·) := by
  rw [List.pairwise_map]
  exact h.imp fun {a b} hab => by
    have := a.first_le_last
    omega

theorem Increasing.getElem_lt {aux : List AuxRange} (h : Increasing aux) {i j : ℕ} (hij : i < j)
    (hj : j < aux.length) : (aux[i]).last < (aux[j]).first :=
  List.pairwise_iff_getElem.mp h i j (by omega) hj hij

/-- The test of the bisection: the start of the range with this index is at most `v`. -/
def startsBy (aux : List AuxRange) (v i : ℕ) : Bool :=
  match (aux.map AuxRange.first)[i]? with
  | some x => x ≤ v
  | none => false

theorem startsBy_iff {aux : List AuxRange} {v i : ℕ} :
    startsBy aux v i = true ↔ ∃ h : i < aux.length, (aux[i]).first ≤ v := by
  rw [startsBy, List.getElem?_map]
  by_cases hi : i < aux.length
  · rw [List.getElem?_eq_getElem hi]
    simp [hi]
  · rw [List.getElem?_eq_none (by omega)]
    simp [hi]

theorem findInterval_spec {aux : List AuxRange} (h : Increasing aux) (v : ℕ) :
    (∀ i < findInterval (aux.map AuxRange.first) v, startsBy aux v i = true) ∧
      ∀ i, findInterval (aux.map AuxRange.first) v ≤ i → startsBy aux v i = false := by
  have hmono : ∀ i j, i ≤ j → startsBy aux v j = true → startsBy aux v i = true := by
    intro i j hij hj
    rw [startsBy_iff] at hj ⊢
    obtain ⟨hjlen, hjv⟩ := hj
    refine ⟨by omega, ?_⟩
    rcases Nat.lt_or_ge i j with hlt | hge
    · have := h.getElem_lt hlt hjlen
      have := (aux[i]).first_le_last
      omega
    · obtain rfl : i = j := by omega
      exact hjv
  have hend : ∀ i, (aux.map AuxRange.first).length ≤ i → startsBy aux v i = false := by
    intro i hi
    rw [List.length_map] at hi
    rw [← Bool.not_eq_true, startsBy_iff]
    rintro ⟨hlt, -⟩
    omega
  exact bisect_spec hmono (Nat.zero_le _) (by omega) (by omega) hend

/-- The lookup finds exactly the variables of the ranges. -/
theorem hitsAux_iff {aux : List AuxRange} (h : Increasing aux) (v : ℕ) :
    hitsAux aux v = true ↔ InAux aux v := by
  obtain ⟨hbelow, habove⟩ := findInterval_spec h v
  rw [hitsAux]
  generalize findInterval (aux.map AuxRange.first) v = n at hbelow habove
  have hindex : ∀ j (hj : j < aux.length), (aux[j]).first ≤ v → j < n := by
    intro j hj hle
    by_contra hc
    have := habove j (by omega)
    rw [startsBy_iff.mpr ⟨hj, hle⟩] at this
    cases this
  constructor
  · intro hhit
    obtain ⟨hpos, hlast⟩ := Bool.and_eq_true_iff.mp hhit
    have hpos' : 0 < n := of_decide_eq_true hpos
    obtain ⟨hlt, hfirst⟩ := startsBy_iff.mp (hbelow (n - 1) (by omega))
    rw [max_eq_left (by omega : 1 ≤ n), List.getElem?_eq_getElem hlt] at hlast
    exact ⟨aux[n - 1], List.getElem_mem hlt, hfirst, of_decide_eq_true hlast⟩
  · rintro ⟨r, hr, hfirst, hlast⟩
    obtain ⟨j, hj, rfl⟩ := List.getElem_of_mem hr
    have hjn := hindex j hj hfirst
    obtain ⟨hlt, hstart⟩ := startsBy_iff.mp (hbelow (n - 1) (by omega))
    -- no later range can start at or below `v`
    have heq : j = n - 1 := by
      by_contra hne
      have := h.getElem_lt (show j < n - 1 by omega) hlt
      omega
    subst heq
    rw [max_eq_left (by omega : 1 ≤ n), List.getElem?_eq_getElem hlt]
    simp only [Bool.and_eq_true, decide_eq_true_eq]
    exact ⟨by omega, hlast⟩

theorem not_inAux_nil (v : ℕ) : ¬InAux [] v := by
  rintro ⟨r, hr, -⟩
  cases hr

/-- `check_not_aux` passes exactly the literals of no range. -/
theorem checkNotAux_ok_iff {aux : List AuxRange} (h : Increasing aux) (lits : List ℤ)
    (arg : String) : checkNotAux aux lits arg = .ok () ↔ ∀ l ∈ lits, ¬InAux aux l.natAbs := by
  rw [checkNotAux]
  by_cases hempty : (aux.isEmpty || lits.isEmpty) = true
  · rw [if_pos hempty]
    rcases Bool.or_eq_true_iff.mp hempty with ha | hl
    · rw [List.isEmpty_iff.mp ha]
      exact ⟨fun _ l _ => not_inAux_nil _, fun _ => rfl⟩
    · rw [List.isEmpty_iff.mp hl]
      exact ⟨fun _ l hl => absurd hl List.not_mem_nil, fun _ => rfl⟩
  · rw [if_neg hempty, decide_eq_true h.starts, Bool.not_true, if_neg Bool.false_ne_true]
    cases hfind : (lits.map Int.natAbs).find? (hitsAux aux) with
    | none =>
      rw [List.find?_eq_none] at hfind
      refine ⟨fun _ l hl => ?_, fun _ => rfl⟩
      rw [← hitsAux_iff h]
      exact hfind _ (List.mem_map_of_mem hl)
    | some v =>
      refine ⟨nofun, fun hall => ?_⟩
      obtain ⟨l, hl, rfl⟩ := List.mem_map.mp (List.mem_of_find?_eq_some hfind)
      exact absurd ((hitsAux_iff h _).mp (List.find?_some hfind)) (hall l hl)

/-- Its only error names a variable of a range. -/
theorem checkNotAux_error {aux : List AuxRange} (h : Increasing aux) {lits : List ℤ}
    {arg : String} {e : RError} (he : checkNotAux aux lits arg = .error e) :
    ∃ l ∈ lits, InAux aux l.natAbs ∧ e = .auxVariable arg l.natAbs := by
  rw [checkNotAux] at he
  split at he
  · cases he
  · rw [decide_eq_true h.starts, Bool.not_true, if_neg Bool.false_ne_true] at he
    split at he
    · next v hfind =>
      obtain ⟨l, hl, rfl⟩ := List.mem_map.mp (List.mem_of_find?_eq_some hfind)
      exact ⟨l, hl, (hitsAux_iff h _).mp (List.find?_some hfind), (Except.error.inj he).symm⟩
    · cases he

end Session
end Zusat
