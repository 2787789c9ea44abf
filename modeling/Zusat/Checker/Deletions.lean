import Zusat.Checker.Calls

/-! # Deletions

A search of one chain finds a clause with the identifier and the literals if the table has any, up to clauses
with the same hash value and literals, between which the checker makes no difference. -/

namespace Zusat.Checker
open Foundations Foundations.Prog
open LratChecker (setMarks_apply clauseText setMarks)
set_option autoImplicit false

variable {s s' : Checker} {a : ℕ} {c : List ℤ} {id : ℤ} {α : Assignment}

/-! ## Searching -/

/-- The test of `find` is passed by the clauses with the key. -/
theorem isClause_iff (h : Consistent s) (hnodup : s.simplified.Nodup) (ha : a ∈ s.clauses.flatten) :
    s.isClause a = true ↔ s.keyAt a = s.pendingKey := by
  obtain ⟨d, hd⟩ := (h.allocated a).mpr (List.mem_append_left _ ha)
  have hwf := h.linked.clause hd
  have hsize : d.size = d.literals.length := hwf.size.resolve_left ((h.live a d hd).mpr ha)
  have hmarks : d.literals.all (setMarks s.marks s.simplified true) = true ↔
      ∀ x ∈ d.literals, x ∈ s.simplified := by
    rw [List.all_eq_true]
    refine forall₂_congr fun x _ => ?_
    rw [setMarks_apply, h.marks]
    simp
  rw [isClause, hd, keyAt, hashAt, hd, pendingKey, Prod.mk.injEq]
  simp only [Bool.and_eq_true, beq_iff_eq, hmarks, Option.map_some, Option.getD_some, hsize]
  constructor
  · rintro ⟨⟨hhash, hlen⟩, hsub⟩
    refine ⟨hhash, Finset.eq_of_subset_of_card_le (fun x hx => ?_) ?_⟩
    · exact List.mem_toFinset.mpr (hsub x (List.mem_toFinset.mp hx))
    · rw [List.toFinset_card_of_nodup hnodup, List.toFinset_card_of_nodup hwf.nodup, hlen]
  · rintro ⟨hhash, heq⟩
    refine ⟨⟨hhash, ?_⟩, fun x hx => ?_⟩
    · rw [← List.toFinset_card_of_nodup hnodup, ← List.toFinset_card_of_nodup hwf.nodup, heq]
    · rw [← List.mem_toFinset, ← heq]
      exact List.mem_toFinset.mpr hx

/-- What the table holds is found. -/
theorem Holds.find {ks : Multiset Key} (hks : Holds s ks) (h : Consistent s) (hpending : Pending s)
    (hmem : s.pendingKey ∈ ks) : ∃ a, Buckets.find s.clauses s.slot s.isClause = some a := by
  have hkey : s.pendingKey ∈ (s.clauses.flatten : Multiset ℕ).map s.keyAt :=
    Multiset.mem_of_le hks.keys (Multiset.mem_filter.mpr ⟨hmem, hpending.unsettled⟩)
  obtain ⟨a, ha, hkeyat⟩ := Multiset.mem_map.mp hkey
  have hslot : ∀ b ∈ s.clauses.flatten, s.isClause b = true →
      LratChecker.reduceHash (s.hashAt b) s.clauses.length = s.slot := by
    intro b hb htest
    have hhash : s.hashAt b = LratChecker.computeHash s.lastId :=
      congrArg Prod.fst ((isClause_iff h hpending.nodup hb).mp htest)
    rw [hhash, slot]
  cases hfind : Buckets.find s.clauses s.slot s.isClause with
  | some a => exact ⟨a, rfl⟩
  | none =>
    have hnone := (Buckets.find_eq_none_iff hks.placed hslot).mp hfind a (Multiset.mem_coe.mp ha)
    rw [(isClause_iff h hpending.nodup (Multiset.mem_coe.mp ha)).mpr hkeyat] at hnone
    cases hnone

/-! ## Taking a clause out -/

theorem count_filter_erase_le {ks rest : Multiset Key} {k : Key} {p : Key → Prop} [DecidablePred p]
    (h : ks.filter p ≤ k ::ₘ rest) : (ks.erase k).filter p ≤ rest := by
  rw [Multiset.le_iff_count] at h ⊢
  intro x
  have hx := h x
  rw [Multiset.count_filter] at hx ⊢
  by_cases hxk : x = k
  · subst hxk
    rw [Multiset.count_cons_self] at hx
    rw [Multiset.count_erase_self]
    by_cases hp : p x
    · rw [if_pos hp] at hx ⊢
      omega
    · rw [if_neg hp]
      exact Nat.zero_le _
  · rw [Multiset.count_cons_of_ne hxk] at hx
    rw [Multiset.count_erase_of_ne hxk]
    exact hx

/-- A clause leaves its chain and becomes garbage. -/
theorem condemned_remove (clauses : List (List ℕ)) (a : ℕ) :
    Condemned [a] s (({ s with clauses := clauses } : Checker).discard a) := condemned_discard

theorem Holds.remove {ks : Multiset Key} (h : Holds s ks) {i : ℕ} {p : ℕ → Bool}
    (hfind : Buckets.find s.clauses i p = some a) :
    Holds (({ s with clauses := Buckets.unlink s.clauses i p } : Checker).discard a) (ks.erase (s.keyAt a)) := by
  have hcondemned := condemned_remove (s := s) (Buckets.unlink s.clauses i p) a
  refine ⟨?_, ?_⟩
  · have hplaced := h.placed.unlink i p
    refine hplaced.congr fun b _ => ?_
    rw [hcondemned.hashAt]
    exact congrArg (LratChecker.reduceHash (s.hashAt b)) (Buckets.length_unlink _ _ _)
  · rw [funext hcondemned.keyAt]
    refine count_filter_erase_le (h.keys.trans_eq ?_)
    have hflat : (s.clauses.flatten : Multiset ℕ) =
        a ::ₘ ((Buckets.unlink s.clauses i p).flatten : Multiset ℕ) :=
      Multiset.coe_eq_coe.mpr (Buckets.flatten_unlink hfind)
    rw [hflat, Multiset.map_cons]
    rfl

/-- Marking a clause of the table as garbage and taking it out of the table. -/
theorem Consistent.remove (h : Consistent s) {i : ℕ} {p : ℕ → Bool} (hfind : Buckets.find s.clauses i p = some a) :
    Consistent (({ s with clauses := Buckets.unlink s.clauses i p } : Checker).discard a) := by
  have hcondemned := condemned_remove (s := s) (Buckets.unlink s.clauses i p) a
  refine ⟨hcondemned.rooted h.toRooted le_rfl rfl rfl rfl rfl, ?_, h.marks, h.consistent⟩
  exact hcondemned.tabled h.toTabled (Buckets.flatten_unlink hfind) (.refl _) (Buckets.length_unlink _ _ _)
    rfl rfl

theorem run_find (h : Consistent s) (hid : 0 < s.lastId) (hne : s.clauses ≠ []) :
    find.run s = (.ok (Buckets.find s.clauses s.slot s.isClause), s) := by
  have hmod : 0 ≤ s.lastId.tmod 4 := Int.tmod_nonneg 4 hid.le
  have hchain : (s.clauses.getD s.slot []).all s.allocated = true :=
    List.all_eq_true.mpr fun a ha => allocated_iff.mpr
      ((h.allocated a).mpr (List.mem_append_left _ (Buckets.mem_flatten_of_getD ha)))
  have hempty : (!s.clauses.isEmpty) = true := by simpa using hne
  have hmarks : setMarks (setMarks s.marks s.simplified true) s.simplified false = s.marks := by
    funext x
    rw [setMarks_apply, setMarks_apply, h.marks]
    split <;> rfl
  rw [find, run_read_bind, run_bind, decide_eq_true hmod, run_require_true, andThen_ok, run_bind, hempty,
    run_require_true, andThen_ok, run_bind, hchain, run_require_true, andThen_ok, run_modify_bind, run_pure,
    hmarks]

/-- On the empty table the search for a clause has no answer. -/
theorem run_find_empty (hid : 0 < s.lastId) (hempty : s.clauses = []) :
    (find.run s).1 = .error .diverges := by
  have hmod : 0 ≤ s.lastId.tmod 4 := Int.tmod_nonneg 4 hid.le
  rw [find, run_read_bind, run_bind, decide_eq_true hmod, run_require_true, andThen_ok, run_bind]
  simp [hempty]

/-! ## The call -/

theorem Idle.clear_eq (h : Idle s) : s.clear = s := by
  rw [Checker.clear, ← h.simplified]
  obtain ⟨-, hs, hu⟩ := h
  rw [hs, ← hu]
  cases s
  simp_all

/-- Assignments that fit the checker fit it without the clause. -/
theorem Fits.condemned {α : Assignment} {as : List ℕ} (h : Fits α s) (hs : Condemned as s s')
    (htrail : s'.trail = s.trail) : Fits α s' := by
  refine ⟨fun {b d} hd hheed => ?_, fun l hl => h.trail l (htrail ▸ hl)⟩
  obtain ⟨c, hc, hlits, hheed', -⟩ := hs.back hd
  rw [hlits]
  exact h.clause hc (hheed' hheed)

/-- The search of a deletion: the table is empty, holds no such clause, or loses the one found. -/
theorem run_deleteFound (h : Consistent s) (hid : 0 < s.lastId) (hpending : Pending s) :
    (∃ a, Buckets.find s.clauses s.slot s.isClause = some a ∧ find.run s = (.ok (some a), s)) ∨
    (find.run s = (.ok none, s) ∨ s.clauses = [] ∧ (find.run s).1 = .error .diverges) ∧
      ∀ ks, Holds s ks → s.pendingKey ∉ ks := by
  by_cases hempty : s.clauses = []
  · refine .inr ⟨.inr ⟨hempty, run_find_empty hid hempty⟩, fun ks hks hin => ?_⟩
    obtain ⟨a, hfound⟩ := hks.find h hpending hin
    have hmem := (Buckets.find_mem hfound).1
    rw [hempty] at hmem
    cases hmem
  · rw [run_find h hid hempty]
    cases hfound : Buckets.find s.clauses s.slot s.isClause with
    | some a => exact .inl ⟨a, rfl, rfl⟩
    | none =>
      refine .inr ⟨.inl rfl, fun ks hks hin => ?_⟩
      obtain ⟨a, ha⟩ := hks.find h hpending hin
      rw [hfound] at ha
      cases ha

/-- A deletion takes away a clause with the key, or the table holds none. -/
theorem run_deleteClause (h : Idle s) (hc : (0 : ℤ) ∉ c) (hid : 0 < id) :
    (∃ s', (deleteClause id c).run s = (.ok (), s') ∧ Resting s' ∧ (∀ α, Agrees α s → Agrees α s') ∧
      ∀ ks, Holds s ks → Recalls s' (ks.erase (keyOf id c))) ∨
    (((deleteClause id c).run s).1 = .error (.fatal ("deleted clause not in proof:\n" ++ clauseText c)) ∨
      s.clauses = [] ∧ ((deleteClause id c).run s).1 = .error .diverges) ∧
      ∀ ks, Holds s ks → keyOf id c ∉ ks := by
  obtain ⟨s₁, himported, himport⟩ := run_import h hc id
  rw [deleteClause, run_read_bind, h.consistent, Bool.not_false, run_doIf_true, run_modify_bind, h.clear_eq,
    himport]
  rcases himported.tautological hc with ⟨hrun, -⟩ | ⟨out, hrun, hmem, hcons, hpending⟩
  · -- a clause that is true is not looked up
    refine .inl ⟨s₁.clear, ?_, Settles.clear (.inr himported.intact), fun α hα => Agrees.clear ?_,
      fun ks hks => Recalls.clear (.inr ?_)⟩
    · rw [run_bind, hrun]
      rfl
    · exact ⟨himported.fits hα.toFits, himported.intact.consistent⟩
    · have hheld := himported.holds hks
      exact ⟨hheld.placed, (Multiset.filter_le_filter _ (Multiset.erase_le _ _)).trans hheld.keys⟩
  · set t : Checker := { s₁ with simplified := out } with ht
    have hlast : t.lastId = id := by rw [ht, himported.frame]
    have hunsimplified : t.unsimplified = c := by rw [ht, himported.frame]
    have hclauses : t.clauses = s.clauses := by rw [ht, himported.frame]
    have hkey : t.pendingKey = keyOf id c := himported.pendingKey hmem
    have hheld : ∀ ks, Holds s ks → Holds t ks := fun ks hks =>
      ⟨(himported.holds hks).placed, (himported.holds hks).keys⟩
    have hgoes : ∀ {β : Type} (k : Bool → CheckerM β), (Checker.tautological >>= k).run s₁ =
        (k false).run t := by
      intro β k
      rw [run_bind, hrun, andThen_ok]
    rw [hgoes, run_bind, Bool.not_false, run_doIf_true, run_read_bind, run_bind]
    rcases run_deleteFound hcons (by rw [hlast]; exact hid) hpending with
      ⟨a, hfound, hfind⟩ | ⟨hnone, hnot⟩
    · have hremoved := hcons.remove hfound
      have htaken : t.keyAt a = keyOf id c := by
        obtain ⟨hmem', htest⟩ := Buckets.find_mem hfound
        exact ((isClause_iff hcons hpending.nodup hmem').mp htest).trans hkey
      rw [hfind]
      refine .inl ⟨_, rfl, Settles.clear (.inr hremoved), fun α hα => Agrees.clear ⟨?_, hremoved.consistent⟩,
        fun ks hks => Recalls.clear (.inr (htaken ▸ (hheld ks hks).remove hfound))⟩
      have hfits : Fits α t := ⟨(himported.fits hα.toFits).clause, (himported.fits hα.toFits).trail⟩
      exact hfits.condemned (condemned_remove _ a) rfl
    · refine .inr ⟨?_, fun ks hks => hkey ▸ hnot ks (hheld ks hks)⟩
      rcases hnone with hfind | ⟨hempty, hfind⟩
      · rw [hfind, ← hunsimplified]
        exact .inl rfl
      · refine .inr ⟨hclauses.symm.trans hempty, ?_⟩
        rcases hr : find.run t with ⟨r, s₂⟩
        rw [hr] at hfind
        obtain rfl : r = .error .diverges := hfind
        rfl

end Zusat.Checker
