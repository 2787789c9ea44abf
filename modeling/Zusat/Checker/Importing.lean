import Zusat.Checker.Checks
import Zusat.Lrat.Marks

/-! # Clauses as they come in

An imported clause is sorted and loses its duplicates, unless it is a tautology or already true; then it is
looked through for a unit, and what is stored has two unassigned literals in front. -/

namespace Zusat.Checker
open Foundations Foundations.Prog
open LratChecker (lt_doubleSize)
set_option autoImplicit false

variable {s s' : Checker} {l : ℤ} {vals : ℤ → ℤ}

/-! ## Importing -/

theorem run_importLiteral (hl : l ≠ 0) : ∃ n, s.sizeVars ≤ n ∧ l.natAbs < n ∧ (importLiteral l).run s =
    (.ok (), { s with
      sizeVars := n, simplified := s.simplified ++ [l], unsimplified := s.unsimplified ++ [l] }) := by
  have hrun : (importLiteral l).run s = (.ok (), (fun s : Checker => { s with
      simplified := s.simplified ++ [l], unsimplified := s.unsimplified ++ [l] })
        (if s.sizeVars ≤ l.natAbs then s.enlargeVars l.natAbs else s)) := by
    rw [importLiteral, run_bind, decide_eq_true hl, run_require_true, andThen_ok, run_modify_bind, run_modify]
  rw [hrun]
  by_cases hsize : s.sizeVars ≤ l.natAbs
  · have hpos : 0 < if s.sizeVars = 0 then 2 else 2 * s.sizeVars := by split <;> omega
    have hgrow : s.sizeVars ≤ if s.sizeVars = 0 then 2 else 2 * s.sizeVars := by split <;> omega
    obtain ⟨hlt, hle⟩ := lt_doubleSize
      (Nat.lt_of_lt_of_le (Nat.lt_two_pow_self (n := l.natAbs)) (Nat.le_mul_of_pos_left _ hpos))
    rw [if_pos hsize]
    exact ⟨_, hgrow.trans hle, hlt, rfl⟩
  · rw [if_neg hsize]
    exact ⟨s.sizeVars, le_rfl, by omega, rfl⟩

theorem run_importClause {c : List ℤ} (hc : (0 : ℤ) ∉ c) : ∃ n, s.sizeVars ≤ n ∧ (∀ l ∈ c, l.natAbs < n) ∧
    (importClause c).run s = (.ok (), { s with
      sizeVars := n, simplified := s.simplified ++ c, unsimplified := s.unsimplified ++ c }) := by
  induction c generalizing s with
  | nil => exact ⟨s.sizeVars, le_rfl, by simp, by simp [importClause]⟩
  | cons l c ih =>
    have hl : l ≠ 0 := fun h => hc (h ▸ List.mem_cons_self)
    obtain ⟨n, hle, hlt, hrun⟩ := run_importLiteral (s := s) hl
    obtain ⟨n', hle', hlt', hrest⟩ := ih (fun h => hc (List.mem_cons_of_mem l h)) (s := { s with
      sizeVars := n, simplified := s.simplified ++ [l], unsimplified := s.unsimplified ++ [l] })
    refine ⟨n', hle.trans hle', List.forall_mem_cons.mpr ⟨Nat.lt_of_lt_of_le hlt hle', hlt'⟩, ?_⟩
    rw [importClause] at hrest ⊢
    rw [run_each_cons, hrun, andThen_ok, hrest]
    simp

/-! ## Sorting -/

theorem litLe_iff {a b : ℤ} : litLe a b = true ↔ a.natAbs < b.natAbs ∨ a.natAbs = b.natAbs ∧ a ≤ b := by
  simp [litLe]

theorem pairwise_sortLits (c : List ℤ) : (sortLits c).Pairwise fun a b => litLe a b = true := by
  have htotal : Std.Total fun a b => litLe a b = true := by
    constructor
    intro a b
    rw [litLe_iff, litLe_iff]
    omega
  have htrans : IsTrans ℤ fun a b => litLe a b = true := by
    constructor
    intro a b c hab hbc
    rw [litLe_iff] at hab hbc ⊢
    omega
  exact List.pairwise_insertionSort _ c

@[simp] theorem mem_sortLits {c : List ℤ} {l : ℤ} : l ∈ sortLits c ↔ l ∈ c := List.mem_insertionSort _

/-- What is left of sorted literals after `prev`. -/
structure Simplified (vals : ℤ → ℤ) (prev : ℤ) (lits out : List ℤ) : Prop where
  mem : ∀ x, x ∈ out ↔ x ∈ lits ∧ x ≠ prev
  above : ∀ x ∈ out, prev.natAbs < x.natAbs
  sorted : out.Pairwise fun a b => a.natAbs < b.natAbs
  notTrue : ∀ x ∈ out, ¬0 < vals x

/-- The loop drops what is a tautology or true, and only that. -/
theorem simplifyLoop_spec {prev : ℤ} {lits : List ℤ} (hlits : (0 : ℤ) ∉ lits)
    (hsorted : (prev :: lits).Pairwise fun a b => litLe a b = true) :
    match simplifyLoop vals prev lits with
    | none => (∃ x ∈ lits, -x ∈ prev :: lits) ∨ ∃ x ∈ lits, 0 < vals x
    | some out => Simplified vals prev lits out := by
  induction lits generalizing prev with
  | nil => exact ⟨by simp, by simp, by simp, by simp⟩
  | cons l lits ih =>
    have hlits' : (0 : ℤ) ∉ lits := fun h => hlits (List.mem_cons_of_mem l h)
    obtain ⟨hprev, hrest⟩ := List.pairwise_cons.mp hsorted
    have hlast : (prev :: lits).Pairwise fun a b => litLe a b = true :=
      hsorted.sublist (List.Sublist.cons_cons prev (List.sublist_cons_self l lits))
    rw [simplifyLoop]
    by_cases hsame : l = prev
    · rw [if_pos hsame]
      have h := ih hlits' hlast
      cases hrun : simplifyLoop vals prev lits with
      | none =>
        rw [hrun] at h
        rcases h with ⟨x, hx, hneg⟩ | ⟨x, hx, htrue⟩
        · refine .inl ⟨x, List.mem_cons_of_mem l hx, ?_⟩
          rcases List.mem_cons.mp hneg with hneg | hneg
          · exact hneg ▸ List.mem_cons_self
          · exact List.mem_cons_of_mem _ (List.mem_cons_of_mem l hneg)
        · exact .inr ⟨x, List.mem_cons_of_mem l hx, htrue⟩
      | some out =>
        rw [hrun] at h
        refine ⟨fun x => ?_, h.above, h.sorted, h.notTrue⟩
        rw [h.mem, List.mem_cons, hsame]
        tauto
    · rw [if_neg hsame]
      by_cases hopp : l = -prev
      · rw [if_pos hopp]
        exact .inl ⟨l, List.mem_cons_self, by rw [hopp, Int.neg_neg]; exact List.mem_cons_self⟩
      · rw [if_neg hopp]
        by_cases htrue : 0 < vals l
        · rw [if_pos htrue]
          exact .inr ⟨l, List.mem_cons_self, htrue⟩
        · rw [if_neg htrue]
          have hlt : prev.natAbs < l.natAbs := by
            have hle := litLe_iff.mp (hprev l List.mem_cons_self)
            omega
          have h := ih hlits' hrest
          cases hrun : simplifyLoop vals l lits with
          | none =>
            rw [hrun] at h
            rcases h with ⟨x, hx, hneg⟩ | ⟨x, hx, hpos⟩
            · exact .inl ⟨x, List.mem_cons_of_mem l hx, List.mem_cons_of_mem prev hneg⟩
            · exact .inr ⟨x, List.mem_cons_of_mem l hx, hpos⟩
          | some out =>
            rw [hrun] at h
            refine ⟨fun x => ?_, fun x hx => ?_, ?_, fun x hx => ?_⟩
            · have hge : x ∈ lits → x ≠ prev := by
                rintro hx rfl
                have hle := litLe_iff.mp ((List.pairwise_cons.mp hrest).1 x hx)
                omega
              rw [List.mem_cons, h.mem, List.mem_cons]
              constructor
              · rintro (rfl | ⟨hx, -⟩)
                · exact ⟨.inl rfl, hsame⟩
                · exact ⟨.inr hx, hge hx⟩
              · rintro ⟨rfl | hx, -⟩
                · exact .inl rfl
                · by_cases hxl : x = l
                  · exact .inl hxl
                  · exact .inr ⟨hx, hxl⟩
            · rcases List.mem_cons.mp hx with rfl | hx
              · exact hlt
              · exact hlt.trans (h.above x hx)
            · exact List.pairwise_cons.mpr ⟨h.above, h.sorted⟩
            · rcases List.mem_cons.mp hx with rfl | hx
              · exact htrue
              · exact h.notTrue x hx

/-- The literals of a clause that has to be looked at. -/
structure Clean (vals : ℤ → ℤ) (c out : List ℤ) : Prop where
  mem : ∀ x, x ∈ out ↔ x ∈ c
  nodup : out.Nodup
  clash : ∀ x ∈ out, -x ∉ out
  notTrue : ∀ x ∈ out, ¬0 < vals x

theorem run_tautological (hzero : (0 : ℤ) ∉ s.simplified) :
    ((tautological.run s = (.ok true, s)) ∧
      ((∃ x ∈ s.simplified, -x ∈ s.simplified) ∨ ∃ x ∈ s.simplified, 0 < s.vals x)) ∨
    ∃ out, tautological.run s = (.ok false, { s with simplified := out }) ∧ Clean s.vals s.simplified out := by
  have hzero' : (0 : ℤ) ∉ sortLits s.simplified := by rwa [mem_sortLits]
  have hsorted : (0 :: sortLits s.simplified).Pairwise fun a b => litLe a b = true := by
    refine List.pairwise_cons.mpr ⟨fun x _ => ?_, pairwise_sortLits _⟩
    rw [litLe_iff]
    omega
  have h := @simplifyLoop_spec s.vals _ _ hzero' hsorted
  rw [tautological, run_read_bind]
  cases hrun : simplifyLoop s.vals 0 (sortLits s.simplified) with
  | none =>
    rw [hrun] at h
    refine .inl ⟨rfl, ?_⟩
    rcases h with ⟨x, hx, hneg⟩ | ⟨x, hx, htrue⟩
    · rw [mem_sortLits] at hx
      rcases List.mem_cons.mp hneg with hneg | hneg
      · have hx0 : x = 0 := by omega
        exact absurd (hx0 ▸ hx) hzero
      · exact .inl ⟨x, hx, by rwa [mem_sortLits] at hneg⟩
    · exact .inr ⟨x, by rwa [mem_sortLits] at hx, htrue⟩
  | some out =>
    rw [hrun] at h
    have hmem : ∀ x, x ∈ out ↔ x ∈ s.simplified := by
      intro x
      rw [h.mem, mem_sortLits]
      exact ⟨fun hx => hx.1, fun hx => ⟨hx, fun h0 => hzero (h0 ▸ hx)⟩⟩
    have hdistinct : ∀ x ∈ out, ∀ y ∈ out, x.natAbs = y.natAbs → x = y := by
      intro x hx y hy heq
      obtain ⟨i, hi, rfl⟩ := List.getElem_of_mem hx
      obtain ⟨j, hj, rfl⟩ := List.getElem_of_mem hy
      have hpairs := List.pairwise_iff_getElem.mp h.sorted
      rcases Nat.lt_trichotomy i j with hij | hij | hij
      · have := hpairs i j hi hj hij
        omega
      · subst hij
        rfl
      · have := hpairs j i hj hi hij
        omega
    refine .inr ⟨out, rfl, hmem, ?_, fun x hx hneg => ?_, h.notTrue⟩
    · refine h.sorted.imp fun {a b} hab => ?_
      rintro rfl
      omega
    · have heq := hdistinct x hx (-x) hneg (Int.natAbs_neg x).symm
      have hx0 : x ≠ 0 := fun h0 => hzero (h0 ▸ (hmem x).mp hx)
      omega

/-! ## Units -/

/-- The literals that are not false. -/
def notFalse (vals : ℤ → ℤ) (c : List ℤ) : List ℤ := c.filter fun l => decide (0 ≤ vals l)

theorem scanUnit_eq (c : List ℤ) (u : LratChecker.UnitScan) : scanUnit vals c u =
    match u, notFalse vals c with
    | u, [] => u
    | .falsified, [l] => .unit l
    | _, _ => .several := by
  induction c generalizing u with
  | nil => cases u <;> rfl
  | cons l c ih =>
    rw [notFalse, List.filter_cons]
    by_cases hneg : vals l < 0
    · have hskip : scanUnit vals (l :: c) u = scanUnit vals c u := by
        unfold scanUnit
        rw [if_pos hneg]
        cases c <;> rfl
      rw [hskip, if_neg (by simpa using hneg), ih]
      rfl
    · rw [if_pos (by simpa using hneg)]
      cases u with
      | falsified =>
        rw [scanUnit, if_neg hneg, ih, notFalse]
        cases c.filter fun l => decide (0 ≤ vals l) with
        | nil => rfl
        | cons y ys => cases ys <;> rfl
      | unit x =>
        rw [scanUnit, if_neg hneg]
        · cases c.filter fun l => decide (0 ≤ vals l) <;> rfl
        · simp
      | several =>
        rw [scanUnit, if_neg hneg]
        · cases c.filter fun l => decide (0 ≤ vals l) <;> rfl
        · simp

/-! ## Watches of a new clause -/

theorem swap_perm {lits : List ℤ} {i j : ℕ} (hi : i < lits.length) (hj : j < lits.length) :
    (swap lits i j).Perm lits := by
  rw [swap, List.getD_eq_getElem _ _ hi, List.getD_eq_getElem _ _ hj]
  exact List.set_set_perm hi hj

/-- A literal that is not assigned is put at the place, if there is one from there on. -/
theorem pickWatch_spec {lits : List ℤ} {i : ℕ} (hi : i < lits.length)
    (hfree : ∃ j, ∃ hj : j < lits.length, i ≤ j ∧ vals lits[j] = 0) :
    (pickWatch vals i lits).Perm lits ∧ vals ((pickWatch vals i lits).getD i 0) = 0 ∧
      ∀ k < i, (pickWatch vals i lits).getD k 0 = lits.getD k 0 := by
  rw [pickWatch]
  by_cases hzero : vals (lits.getD i 0) = 0
  · rw [if_pos hzero]
    exact ⟨.rfl, hzero, fun _ _ => rfl⟩
  · rw [if_neg hzero]
    obtain ⟨j, hj, hij, hjzero⟩ := hfree
    have hne : i ≠ j := by
      rintro rfl
      rw [List.getD_eq_getElem _ _ hj] at hzero
      exact hzero hjzero
    cases hfind : (List.range' (i + 1) (lits.length - (i + 1))).find? fun j => vals (lits.getD j 0) = 0 with
    | none =>
      have hnone := List.find?_eq_none.mp hfind j (List.mem_range'_1.mpr (by omega))
      rw [List.getD_eq_getElem _ _ hj] at hnone
      exact absurd (by simpa using hjzero) hnone
    | some k =>
      have hk := List.mem_range'_1.mp (List.mem_of_find?_eq_some hfind)
      have hkzero := List.find?_some hfind
      have hklt : k < lits.length := by omega
      have hik : i ≠ k := by omega
      refine ⟨swap_perm hi hklt, ?_, fun m hm => ?_⟩
      · simp only [swap, List.getD_eq_getElem?_getD]
        rw [List.getElem?_set_ne (Ne.symm hik), List.getElem?_set_self hi]
        simpa [List.getD_eq_getElem?_getD] using hkzero
      · simp only [swap, List.getD_eq_getElem?_getD]
        rw [List.getElem?_set_ne (by omega), List.getElem?_set_ne (by omega)]

/-- A clause with two literals that are not assigned gets them as its watches. -/
theorem pickWatches_spec {lits : List ℤ} (htwo : 2 ≤ (lits.filter fun l => decide (vals l = 0)).length) :
    ∃ x y rest, pickWatch vals 1 (pickWatch vals 0 lits) = x :: y :: rest ∧ (x :: y :: rest).Perm lits ∧
      vals x = 0 ∧ vals y = 0 := by
  have hlen : 2 ≤ lits.length := htwo.trans (List.length_filter_le _ _)
  have hfree : ∃ j, ∃ hj : j < lits.length, 0 ≤ j ∧ vals lits[j] = 0 := by
    obtain ⟨x, hx⟩ := List.exists_mem_of_length_pos (by omega : 0 < (lits.filter fun l => decide (vals l = 0)).length)
    obtain ⟨hx, hzero⟩ := List.mem_filter.mp hx
    obtain ⟨j, hj, rfl⟩ := List.getElem_of_mem hx
    exact ⟨j, hj, Nat.zero_le j, of_decide_eq_true hzero⟩
  obtain ⟨hperm, hfirst, -⟩ := pickWatch_spec (by omega) hfree
  generalize hpicked : pickWatch vals 0 lits = picked at hperm hfirst ⊢
  match picked, hperm, hfirst with
  | [], hperm, _ =>
    have := hperm.length_eq
    simp at this
    omega
  | x :: rest, hperm, hfirst =>
    have hx : vals x = 0 := hfirst
    have hrestlen : 1 < (x :: rest).length := by
      rw [hperm.length_eq]
      omega
    have hsecond : ∃ j, ∃ hj : j < (x :: rest).length, 1 ≤ j ∧ vals (x :: rest)[j] = 0 := by
      have hcount := (hperm.filter fun l => decide (vals l = 0)).length_eq
      rw [List.filter_cons, if_pos (by simpa using hx), List.length_cons] at hcount
      obtain ⟨y, hy⟩ := List.exists_mem_of_length_pos
        (by omega : 0 < (rest.filter fun l => decide (vals l = 0)).length)
      obtain ⟨hy, hzero⟩ := List.mem_filter.mp hy
      obtain ⟨j, hj, rfl⟩ := List.getElem_of_mem hy
      exact ⟨j + 1, by simpa using hj, by omega, by simpa using hzero⟩
    obtain ⟨hperm', hy, hkeep⟩ := pickWatch_spec hrestlen hsecond
    have hx' := hkeep 0 (by omega)
    generalize pickWatch vals 1 (x :: rest) = final at hperm' hy hx' ⊢
    match final, hperm', hy, hx' with
    | [], hperm', _, _ => exact absurd hperm'.length_eq (by simp)
    | [_], hperm', _, _ =>
      rw [← hperm'.length_eq] at hrestlen
      exact absurd hrestlen (by simp)
    | a :: b :: tail, hperm', hy, hx' =>
      have ha : a = x := hx'
      exact ⟨a, b, tail, rfl, hperm'.trans hperm, ha ▸ hx, hy⟩

end Zusat.Checker
