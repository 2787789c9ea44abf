import Zusat.Foundations.Runs
import Zusat.Lrat.Calls

/-! # The table of the LRAT checker as a map

Seen from outside the hash table is a map from identifiers to clauses, whatever its size and however often
its clauses have been moved to a larger one. The one call that could put two clauses under one identifier is
a restored clause, which `add_original_clause` inserts without a search. -/

namespace Zusat.LratChecker
open Foundations Foundations.Prog
set_option autoImplicit false

/-- What a search for an identifier finds. -/
def lookup (s : LratChecker) (id : ℤ) : Option (List ℤ) :=
  (Buckets.find s.clauses (s.slot id) (isClause id)).map (·.literals)

/-- What a call does to the map. -/
def record (m : ℤ → Option (List ℤ)) : Event → ℤ → Option (List ℤ)
  | .original id c _ => Function.update m id (some c)
  | .derived id c _ => Function.update m id (some c)
  | .delete id _ => Function.update m id none
  | _ => m

/-- The call returns, and a clause is restored only when it is not there. -/
def Restoring (s : LratChecker) (e : Event) (r : Except LratFailure Unit) : Prop :=
  r = .ok () ∧ ∀ id c, e = .original id c true → s.lookup id = none

/-- The table holds the clauses of the map, each once. -/
structure Holds (s : LratChecker) (m : ℤ → Option (List ℤ)) : Prop where
  unique : (s.clauses.flatten.map (·.id)).Nodup
  mem : ∀ id c, m id = some c ↔ ∃ d ∈ s.clauses.flatten, d.id = id ∧ d.literals = c

theorem holds_new : Holds new fun _ => none := by
  refine ⟨List.nodup_nil, fun id c => ?_⟩
  constructor
  · intro h
    cases h
  · rintro ⟨d, hd, -⟩
    cases hd

theorem lookup_none {s : LratChecker} (hs : TableAtRest s) {id : ℤ} (h : s.lookup id = none) :
    ∀ d ∈ s.clauses.flatten, d.id ≠ id :=
  find_none hs.toTableInOrder (Option.map_eq_none_iff.mp h)

theorem Holds.lookup {s : LratChecker} (hs : TableAtRest s) {m : ℤ → Option (List ℤ)} (h : Holds s m) (id : ℤ) :
    s.lookup id = m id := by
  cases hfind : Buckets.find s.clauses (s.slot id) (isClause id) with
  | some d =>
    obtain ⟨hmem, hid⟩ := found_mem hfind
    rw [LratChecker.lookup, hfind, (h.mem id d.literals).mpr ⟨d, hmem, hid, rfl⟩]
    rfl
  | none =>
    have hlookup : s.lookup id = none := by
      rw [LratChecker.lookup, hfind]
      rfl
    rw [hlookup]
    cases hm : m id with
    | none => rfl
    | some c =>
      obtain ⟨d, hd, hid, -⟩ := (h.mem id c).mp hm
      exact absurd hid (lookup_none hs hlookup d hd)

/-! ## Steps -/

section Step
variable {s s' : LratChecker} {m : ℤ → Option (List ℤ)} {id : ℤ} {c : List ℤ}

theorem Holds.perm (h : Holds s m) (hperm : s.clauses.flatten.Perm s'.clauses.flatten) : Holds s' m := by
  refine ⟨(hperm.map _).nodup_iff.mp h.unique, fun i D => (h.mem i D).trans ?_⟩
  simp only [hperm.mem_iff]

theorem Holds.add (h : Holds s m) (hadds : Adds s id c s') (hnew : ∀ d ∈ s.clauses.flatten, d.id ≠ id) :
    Holds s' (Function.update m id (some c)) := by
  obtain ⟨n, hn, hc, hperm⟩ := hadds.clauses
  have hids := hperm.map (·.id)
  refine ⟨hids.nodup_iff.mpr ?_, fun i D => ?_⟩
  · rw [List.map_cons, List.nodup_cons]
    refine ⟨fun hmem => ?_, h.unique⟩
    obtain ⟨d, hd, heq⟩ := List.mem_map.mp hmem
    exact hnew d hd (heq.trans hn)
  · simp only [hperm.mem_iff, List.mem_cons]
    by_cases hi : i = id
    · subst hi
      rw [Function.update_self, Option.some_inj]
      constructor
      · rintro rfl
        exact ⟨n, .inl rfl, hn, hc⟩
      · rintro ⟨d, rfl | hd, hid, hD⟩
        · exact hc.symm.trans hD
        · exact absurd hid (hnew d hd)
    · rw [Function.update_of_ne hi, h.mem]
      constructor
      · rintro ⟨d, hd, hid, hD⟩
        exact ⟨d, .inr hd, hid, hD⟩
      · rintro ⟨d, rfl | hd, hid, hD⟩
        · exact absurd (hid.symm.trans hn) hi
        · exact ⟨d, hd, hid, hD⟩

theorem Holds.delete (h : Holds s m) (hdeletes : Deletes s id c s') :
    Holds s' (Function.update m id none) := by
  obtain ⟨d, hd, -, hperm⟩ := hdeletes.clauses
  have hids := (hperm.map (·.id)).nodup_iff.mp h.unique
  rw [List.map_cons, List.nodup_cons] at hids
  have hgone : ∀ d' ∈ s'.clauses.flatten, d'.id ≠ id := by
    intro d' hd' heq
    exact hids.1 (List.mem_map.mpr ⟨d', hd', heq.trans hd.symm⟩)
  refine ⟨hids.2, fun i D => ?_⟩
  by_cases hi : i = id
  · subst hi
    rw [Function.update_self]
    constructor
    · intro h
      cases h
    · rintro ⟨d', hd', hid, -⟩
      exact absurd hid (hgone d' hd')
  · rw [Function.update_of_ne hi, h.mem]
    simp only [hperm.mem_iff, List.mem_cons]
    constructor
    · rintro ⟨d', rfl | hd', hid, hD⟩
      · exact absurd (hid.symm.trans hd) hi
      · exact ⟨d', hd', hid, hD⟩
    · rintro ⟨d', hd', hid, hD⟩
      exact ⟨d', .inr hd', hid, hD⟩

theorem Holds.step (hs : TableAtRest s) (h : Holds s m) {e : Event} (hdid : Did s s' e)
    (hfresh : ∀ id c, e = .original id c true → s.lookup id = none) : Holds s' (record m e) := by
  cases hdid with
  | nothing he hclauses hsaved =>
    have hrecord : record m e = m := by
      cases e <;> first | rfl | exact he.elim
    rw [hrecord]
    exact h.perm (by rw [hclauses])
  | original hadds hsaved hnew => exact h.add hadds hnew
  | restored hadds hlookup hsaved => exact h.add hadds (lookup_none hs (hfresh _ _ rfl))
  | derived hadds hsaved hnew hderived => exact h.add hadds hnew
  | assumed hperm hsaved hnew hderived => exact h.perm hperm
  | deleted hdeletes => exact h.delete hdeletes
  | weakened hclauses hpart hsaved => exact h.perm (by rw [hclauses])

end Step

/-! ## Whole proofs -/

theorem holds_run {es : List Event} {s : LratChecker} {m : ℤ → Option (List ℤ)} (hs : TableAtRest s)
    (h : Holds s m) (hes : Every step Restoring s es) :
    TableAtRest (run step s es) ∧ Holds (run step s es) (es.foldl record m) := by
  induction es generalizing s m with
  | nil => exact ⟨hs, h⟩
  | cons e es ih =>
    obtain ⟨hatrest, hdid⟩ := step_did hs hes.1.1
    exact ih hatrest (h.step hs hdid hes.1.2) hes.2

/-- After every accepted proof the table is in order, both arrays of marks are clear, and a search finds
exactly the clause last put under an identifier and not deleted since. -/
theorem table_is_map (es : List Event) (hes : Every step Restoring new es) :
    TableAtRest (run step new es) ∧ ∀ id, (run step new es).lookup id = es.foldl record (fun _ => none) id := by
  obtain ⟨hatrest, hholds⟩ := holds_run tableAtRest_new holds_new hes
  exact ⟨hatrest, hholds.lookup hatrest⟩

/-- Three insertions move the first clause twice. -/
theorem table_is_map_moved : (run step new [.original 1 [1] false, .original 2 [2, -1] false,
    .derived 3 [2] [1, 2], .weakenMinus 1 [1], .delete 1 [1], .original 1 [1] true]).lookup 1 = some [1] := by
  refine ((table_is_map _ ?_).2 1).trans rfl
  refine ⟨?_, ?_, ?_, ?_, ?_, ?_, trivial⟩ <;> refine ⟨by decide +kernel, ?_⟩ <;> rintro id c h <;> cases h
  decide +kernel

end Zusat.LratChecker
