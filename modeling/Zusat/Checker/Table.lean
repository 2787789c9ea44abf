import Zusat.Checker.Importing
import Mathlib.Data.Finset.Card
import Mathlib.Data.Finset.Dedup
import Mathlib.Data.Multiset.Filter

/-! # The table of clauses

A clause is allocated as long as it is in the table or waits as garbage, and never both. Storing a clause and
collecting garbage keep this, and the watches. -/

namespace Zusat.Checker
open Foundations Foundations.Prog
open LratChecker (reduceHash_lt)
set_option autoImplicit false

variable {s s' : Checker} {l : ℤ} {a : ℕ}

structure Tabled (s : Checker) : Prop where
  nodup : (s.clauses.flatten ++ s.garbage).Nodup
  allocated : ∀ a, (∃ c, s.clauseAt a = some c) ↔ a ∈ s.clauses.flatten ++ s.garbage
  live : ∀ a c, s.clauseAt a = some c → (c.size ≠ 0 ↔ a ∈ s.clauses.flatten)
  count : s.numClauses = s.clauses.flatten.length
  load : s.numClauses ≤ s.clauses.length
  waiting : s.numGarbage = s.garbage.length

/-- What holds between the steps of a call. -/
structure Consistent (s : Checker) : Prop extends Rooted s, Tabled s where
  marks : s.marks = fun _ => false
  consistent : s.inconsistent = false

theorem allocated_iff : s.allocated a = true ↔ ∃ c, s.clauseAt a = some c := Option.isSome_iff_exists

theorem Tabled.table (h : Tabled s) : s.clauses.flatten.all s.allocated = true :=
  List.all_eq_true.mpr fun _ ha => allocated_iff.mpr ((h.allocated _).mpr (List.mem_append_left _ ha))

theorem Tabled.same (h : Tabled s) (hstore : SameStore s s') (hclauses : s'.clauses = s.clauses)
    (hgarbage : s'.garbage = s.garbage) (hnum : s'.numClauses = s.numClauses)
    (hwaiting : s'.numGarbage = s.numGarbage) : Tabled s' := by
  refine ⟨?_, fun a => ?_, fun a d hd => ?_, ?_, ?_, ?_⟩
  · rw [hclauses, hgarbage]
    exact h.nodup
  · rw [hclauses, hgarbage, ← h.allocated]
    constructor
    · rintro ⟨d, hd⟩
      obtain ⟨c, hc, -⟩ := hstore.back hd
      exact ⟨c, hc⟩
    · rintro ⟨c, hc⟩
      obtain ⟨d, hd, -⟩ := hstore.forth hc
      exact ⟨d, hd⟩
  · obtain ⟨c, hc, hcd⟩ := hstore.back hd
    rw [hcd.size, hclauses]
    exact h.live a c hc
  · rw [hnum, hclauses]
    exact h.count
  · rw [hnum, hclauses]
    exact h.load
  · rw [hwaiting, hgarbage]
    exact h.waiting

/-- The table may be arranged in another way. -/
theorem Tabled.perm (h : Tabled s) {clauses : List (List ℕ)} (hperm : clauses.flatten.Perm s.clauses.flatten)
    (hload : s.numClauses ≤ clauses.length) : Tabled { s with clauses := clauses } := by
  have hall : (clauses.flatten ++ s.garbage).Perm (s.clauses.flatten ++ s.garbage) := hperm.append_right _
  exact ⟨hall.nodup_iff.mpr h.nodup, fun a => (h.allocated a).trans hall.mem_iff.symm,
    fun a c hc => (h.live a c hc).trans hperm.mem_iff.symm, h.count.trans hperm.length_eq.symm, hload, h.waiting⟩

/-! ## What the table holds -/

/-- The hash value of a clause and its literals. -/
abbrev Key := ℕ × Finset ℤ

def keyAt (s : Checker) (a : ℕ) : Key :=
  (s.hashAt a, ((s.clauseAt a).map fun c => c.literals.toFinset).getD ∅)

/-- No literal is true, and no two clash. -/
def Unsettled (trail : List ℤ) (k : Key) : Prop := ∀ l ∈ k.2, l ∉ trail ∧ -l ∉ k.2

instance (trail : List ℤ) : DecidablePred (Unsettled trail) := fun k =>
  inferInstanceAs (Decidable (∀ l ∈ k.2, l ∉ trail ∧ -l ∉ k.2))

/-- Every clause is in its chain, and the table has a clause for each of the keys but those that are settled. -/
structure Holds (s : Checker) (ks : Multiset Key) : Prop where
  placed : Buckets.Placed (fun a => LratChecker.reduceHash (s.hashAt a) s.clauses.length) s.clauses
  keys : ks.filter (Unsettled s.trail) ≤ (s.clauses.flatten : Multiset ℕ).map s.keyAt

theorem Unsettled.mono {trail trail' : List ℤ} {k : Key} (h : Unsettled trail' k) (hsub : trail ⊆ trail') :
    Unsettled trail k := fun l hl => ⟨fun htrue => (h l hl).1 (hsub htrue), (h l hl).2⟩

theorem filter_unsettled_le {trail trail' : List ℤ} (hsub : trail ⊆ trail') (ks : Multiset Key) :
    ks.filter (Unsettled trail') ≤ ks.filter (Unsettled trail) :=
  Multiset.monotone_filter_right ks fun _ hk => hk.mono hsub

theorem hashAt_congr (h : s'.clauseAt a = s.clauseAt a) : s'.hashAt a = s.hashAt a := by
  rw [hashAt, hashAt, h]

theorem keyAt_congr (h : s'.clauseAt a = s.clauseAt a) : s'.keyAt a = s.keyAt a := by
  rw [keyAt, keyAt, hashAt_congr h, h]

theorem SameStore.hashAt (h : SameStore s s') (a : ℕ) : s'.hashAt a = s.hashAt a := by
  rcases h a with ⟨hn, hn'⟩ | ⟨c, d, hc, hd, hcd⟩
  · rw [Checker.hashAt, Checker.hashAt, hn, hn']
  · rw [Checker.hashAt, Checker.hashAt, hc, hd]
    exact hcd.hash

theorem SameStore.keyAt (h : SameStore s s') (a : ℕ) : s'.keyAt a = s.keyAt a := by
  have hhash := h.hashAt a
  rcases h a with ⟨hn, hn'⟩ | ⟨c, d, hc, hd, hcd⟩
  · rw [Checker.keyAt, Checker.keyAt, hhash, hn, hn']
  · rw [Checker.keyAt, Checker.keyAt, hhash, hc, hd]
    exact congrArg (Prod.mk _) (List.toFinset_eq_of_perm _ _ hcd.literals)

/-- More literals are true, and clauses have other watches. -/
theorem Holds.same {ks : Multiset Key} (h : Holds s ks) (hstore : SameStore s s')
    (hclauses : s'.clauses = s.clauses) (htrail : s.trail ⊆ s'.trail) : Holds s' ks := by
  refine ⟨?_, ?_⟩
  · rw [hclauses]
    exact h.placed.congr fun a _ => by rw [hstore.hashAt]
  · have hkeys : s'.keyAt = s.keyAt := funext hstore.keyAt
    rw [hclauses, hkeys]
    exact (filter_unsettled_le htrail ks).trans h.keys

/-! ## Storing a clause -/

theorem run_enlargeClauses (h : Tabled s) (hfull : s.numClauses = s.clauses.length) :
    ∃ clauses, enlargeClauses.run s = (.ok (), { s with clauses := clauses }) ∧
      clauses.flatten.Perm s.clauses.flatten ∧ s.numClauses < clauses.length ∧
      Buckets.Placed (fun a => LratChecker.reduceHash (s.hashAt a) clauses.length) clauses := by
  have hpos : 0 < if s.clauses.length = 0 then 1 else 2 * s.clauses.length := by split <;> omega
  have hindex : ∀ a ∈ s.clauses.flatten, LratChecker.reduceHash (s.hashAt a)
      (if s.clauses.length = 0 then 1 else 2 * s.clauses.length) <
        if s.clauses.length = 0 then 1 else 2 * s.clauses.length := fun _ _ => reduceHash_lt hpos
  obtain ⟨hlen, hperm, hplaced⟩ := Buckets.rehash_spec hindex
  refine ⟨_, ?_, hperm, ?_, ?_⟩
  · rw [enlargeClauses, run_read_bind, run_bind, h.table]
    rfl
  · rw [hlen]
    split <;> omega
  · rw [hlen]
    exact hplaced

theorem clauseAt_append {c : CheckerClause} (hstore : s'.store = s.store ++ [some c]) (b : ℕ) :
    s'.clauseAt b = if b = s.store.length then some c else s.clauseAt b := by
  rw [clauseAt, clauseAt, hstore]
  by_cases hb : b = s.store.length
  · rw [if_pos hb, hb]
    simp
  · rw [if_neg hb]
    rcases Nat.lt_or_gt_of_ne hb with hlt | hgt
    · rw [List.getElem?_append_left hlt]
    · rw [List.getElem?_eq_none (by rw [List.length_append]; exact hgt), List.getElem?_eq_none hgt.le]

theorem Tabled.insert {c : CheckerClause} {i : ℕ} (h : Tabled s) (hi : i < s.clauses.length)
    (hroom : s.numClauses < s.clauses.length) (hc : c.size ≠ 0) (hstore : s'.store = s.store ++ [some c])
    (hclauses : s'.clauses = Buckets.push s.clauses i s.store.length) (hgarbage : s'.garbage = s.garbage)
    (hnum : s'.numClauses = s.numClauses + 1) (hwaiting : s'.numGarbage = s.numGarbage) : Tabled s' := by
  have hflat : s'.clauses.flatten.Perm (s.store.length :: s.clauses.flatten) := by
    rw [hclauses]
    exact Buckets.flatten_push hi s.store.length
  have hall : (s'.clauses.flatten ++ s'.garbage).Perm
      (s.store.length :: (s.clauses.flatten ++ s.garbage)) := by
    rw [hgarbage]
    exact hflat.append_right _
  have hat := clauseAt_append hstore
  have hnew : s.store.length ∉ s.clauses.flatten ++ s.garbage := by
    intro hmem
    obtain ⟨d, hd⟩ := (h.allocated _).mpr hmem
    exact (clauseAt_lt hd).false
  refine ⟨hall.nodup_iff.mpr (List.nodup_cons.mpr ⟨hnew, h.nodup⟩), fun b => ?_, fun b d hd => ?_, ?_, ?_, ?_⟩
  · rw [hall.mem_iff, List.mem_cons, ← h.allocated b, hat]
    by_cases hb : b = s.store.length
    · rw [if_pos hb]
      exact ⟨fun _ => .inl hb, fun _ => ⟨c, rfl⟩⟩
    · rw [if_neg hb]
      exact ⟨.inr, fun hor => hor.resolve_left hb⟩
  · rw [hflat.mem_iff, List.mem_cons]
    rw [hat] at hd
    split at hd
    · next hb =>
      cases hd
      exact ⟨fun _ => .inl hb, fun _ => hc⟩
    · next hb =>
      rw [h.live b d hd]
      exact ⟨.inr, fun hor => hor.resolve_left hb⟩
  · rw [hnum, hflat.length_eq, List.length_cons, h.count]
  · rw [hnum, hclauses, Buckets.length_push]
    exact hroom
  · rw [hwaiting, hgarbage, h.waiting]

/-- The watches of a new clause. -/
theorem Linked.insert {x y : ℤ} {rest : List ℤ} {hash n : ℕ} (h : Linked s s.watchers)
    (hwf : WellFormed s ⟨hash, n, x :: y :: rest⟩) (hn : n = (x :: y :: rest).length)
    (hstore : s'.store = s.store ++ [some ⟨hash, n, x :: y :: rest⟩]) (hvars : s.sizeVars ≤ s'.sizeVars) :
    Linked s' (Function.update (Function.update s.watchers x (s.watchers x ++ [⟨y, n, s.store.length⟩])) y
      (Function.update s.watchers x (s.watchers x ++ [⟨y, n, s.store.length⟩]) y ++
        [⟨x, n, s.store.length⟩])) := by
  have hne : x ≠ y := by
    obtain ⟨x', y', rest', heq, hne, -⟩ := hwf.split
    cases heq
    exact hne
  have hat := clauseAt_append hstore
  have hold : ∀ {b c}, s.clauseAt b = some c → b ≠ s.store.length := fun hc => (clauseAt_lt hc).ne
  have hwatchers : ∀ l v, v ∈ Function.update (Function.update s.watchers x
      (s.watchers x ++ [⟨y, n, s.store.length⟩])) y (Function.update s.watchers x
        (s.watchers x ++ [⟨y, n, s.store.length⟩]) y ++ [⟨x, n, s.store.length⟩]) l ↔
      v ∈ s.watchers l ∨ (l = x ∧ v = ⟨y, n, s.store.length⟩) ∨ (l = y ∧ v = ⟨x, n, s.store.length⟩) := by
    intro l v
    by_cases hly : l = y
    · rw [hly, Function.update_self, Function.update_of_ne (Ne.symm hne)]
      simp [Ne.symm hne]
    · rw [Function.update_of_ne hly]
      by_cases hlx : l = x
      · rw [hlx, Function.update_self]
        simp [hne]
      · rw [Function.update_of_ne hlx]
        simp [hly, hlx]
  have hfresh : ∀ l, s.store.length ∉ (s.watchers l).map CheckerWatch.clause := by
    intro l hmem
    obtain ⟨v, hv, hvc⟩ := List.mem_map.mp hmem
    obtain ⟨c, hc, -⟩ := h.watch hv
    exact hold hc hvc
  refine ⟨fun {b c} hc => ?_, fun {l v} hv => ?_, fun l => ?_, fun {b c} hc hheed {l} hl => ?_⟩
  · rw [hat] at hc
    split at hc
    · cases hc
      exact hwf.mono hvars
    · exact (h.clause hc).mono hvars
  · rcases (hwatchers l v).mp hv with hv | ⟨rfl, rfl⟩ | ⟨rfl, rfl⟩
    · obtain ⟨c, hc, hrest⟩ := h.watch hv
      exact ⟨c, by rw [hat, if_neg (hold hc)]; exact hc, hrest⟩
    · exact ⟨_, by rw [hat, if_pos rfl], hn, by simp, Ne.symm hne, (watching_cons rfl).mpr (.inl rfl)⟩
    · exact ⟨_, by rw [hat, if_pos rfl], hn, by simp, hne, (watching_cons rfl).mpr (.inr rfl)⟩
  · have happend : ∀ (l : ℤ) (blit : ℤ),
        ((s.watchers l ++ [(⟨blit, n, s.store.length⟩ : CheckerWatch)]).map CheckerWatch.clause).Nodup := by
      intro l blit
      rw [List.map_append]
      refine List.nodup_append'.mpr ⟨h.unique l, List.nodup_singleton _, fun z hz hz' => ?_⟩
      rw [List.map_singleton, List.mem_singleton] at hz'
      rw [hz'] at hz
      exact hfresh l hz
    by_cases hly : l = y
    · rw [hly, Function.update_self, Function.update_of_ne (Ne.symm hne)]
      exact happend y x
    · rw [Function.update_of_ne hly]
      by_cases hlx : l = x
      · rw [hlx, Function.update_self]
        exact happend x y
      · rw [Function.update_of_ne hlx]
        exact h.unique l
  · rw [hat] at hc
    split at hc
    · next hb =>
      cases hc
      rcases (watching_cons rfl).mp hl with rfl | rfl
      · exact ⟨_, (hwatchers x _).mpr (.inr (.inl ⟨rfl, rfl⟩)), hb.symm⟩
      · exact ⟨_, (hwatchers y _).mpr (.inr (.inr ⟨rfl, rfl⟩)), hb.symm⟩
    · obtain ⟨v, hv, hvb⟩ := h.watched hc hheed hl
      exact ⟨v, (hwatchers l v).mpr (.inl hv), hvb⟩

/-- A new clause in its chain. -/
theorem Holds.insert {c : CheckerClause} {ks : Multiset Key} (h : Holds s ks) (ht : Tabled s)
    (hi : LratChecker.reduceHash c.hash s.clauses.length < s.clauses.length)
    (hstore : s'.store = s.store ++ [some c])
    (hclauses : s'.clauses =
      Buckets.push s.clauses (LratChecker.reduceHash c.hash s.clauses.length) s.store.length)
    (htrail : s'.trail = s.trail) : Holds s' ((c.hash, c.literals.toFinset) ::ₘ ks) := by
  have hat := clauseAt_append hstore
  have hold : ∀ b ∈ s.clauses.flatten, s'.clauseAt b = s.clauseAt b := by
    intro b hb
    obtain ⟨d, hd⟩ := (ht.allocated b).mpr (List.mem_append_left _ hb)
    rw [hat, if_neg (clauseAt_lt hd).ne]
  have hhash : s'.hashAt s.store.length = c.hash := by
    rw [hashAt, hat, if_pos rfl]
    rfl
  have hkey : s'.keyAt s.store.length = (c.hash, c.literals.toFinset) := by
    rw [keyAt, hhash, hat, if_pos rfl]
    rfl
  have hlen : s'.clauses.length = s.clauses.length := by rw [hclauses, Buckets.length_push]
  refine ⟨?_, ?_⟩
  · have hplaced : Buckets.Placed (fun a => LratChecker.reduceHash (s'.hashAt a) s.clauses.length) s.clauses :=
      h.placed.congr fun a ha => by rw [hashAt_congr (hold a ha)]
    have hindex : LratChecker.reduceHash (s'.hashAt s.store.length) s.clauses.length < s.clauses.length := by
      rw [hhash]
      exact hi
    have hpush := hplaced.push hindex
    rw [hlen, hclauses]
    rw [hhash] at hpush
    exact hpush
  · have hflat : (s'.clauses.flatten : Multiset ℕ) = s.store.length ::ₘ (s.clauses.flatten : Multiset ℕ) := by
      rw [hclauses]
      exact Multiset.coe_eq_coe.mpr (Buckets.flatten_push hi _)
    have hmap : (s.clauses.flatten : Multiset ℕ).map s'.keyAt = (s.clauses.flatten : Multiset ℕ).map s.keyAt :=
      Multiset.map_congr rfl fun b hb => keyAt_congr (hold b (Multiset.mem_coe.mp hb))
    rw [hflat, Multiset.map_cons, hkey, hmap, htrail]
    by_cases hopen : Unsettled s.trail (c.hash, c.literals.toFinset)
    · rw [Multiset.filter_cons_of_pos _ hopen]
      exact Multiset.cons_le_cons _ h.keys
    · rw [Multiset.filter_cons_of_neg _ hopen]
      exact h.keys.trans (Multiset.le_cons_self _ _)

/-- The clause the checker is about to store or to look for. -/
def pendingKey (s : Checker) : Key := (LratChecker.computeHash s.lastId, s.simplified.toFinset)

/-- What the literals of a clause must be to be stored. -/
structure Storable (s : Checker) : Prop where
  nodup : s.simplified.Nodup
  known : ∀ l ∈ s.simplified, s.known l
  free : 2 ≤ (s.simplified.filter fun l => decide (s.vals l = 0)).length

/-- A clause is stored with its literals in another order, and nothing else changes. -/
theorem run_insert (h : Consistent s) (hid : 0 < s.lastId) (hstorable : Storable s) :
    ∃ s' lits, insert.run s = (.ok (), s') ∧ Consistent s' ∧ lits.Perm s.simplified ∧ s'.trail = s.trail ∧
      (∀ a c, s'.clauseAt a = some c → s.clauseAt a = some c ∨ c.literals = lits) ∧
      ∀ ks, Holds s ks → Holds s' (s.pendingKey ::ₘ ks) := by
  obtain ⟨clauses, henlarge, hperm, hroom, hplaced⟩ : ∃ clauses,
      (doIf (s.numClauses = s.clauses.length) enlargeClauses).run s = (.ok (), { s with clauses := clauses }) ∧
        clauses.flatten.Perm s.clauses.flatten ∧ s.numClauses < clauses.length ∧
        (Buckets.Placed (fun a => LratChecker.reduceHash (s.hashAt a) s.clauses.length) s.clauses →
          Buckets.Placed (fun a => LratChecker.reduceHash (s.hashAt a) clauses.length) clauses) := by
    by_cases hfull : s.numClauses = s.clauses.length
    · obtain ⟨clauses, hrun, hperm, hroom, hplaced⟩ := run_enlargeClauses h.toTabled hfull
      exact ⟨clauses, by rw [decide_eq_true hfull, run_doIf_true, hrun], hperm, hroom, fun _ => hplaced⟩
    · refine ⟨s.clauses, by rw [decide_eq_false hfull, run_doIf_false], .rfl, ?_, id⟩
      have := h.load
      omega
  obtain ⟨x, y, rest, hpick, hlits, hx, hy⟩ := pickWatches_spec hstorable.free
  have hmod : 0 ≤ s.lastId.tmod 4 := Int.tmod_nonneg 4 hid.le
  have hslot : ({ s with clauses := clauses } : Checker).slot < clauses.length :=
    reduceHash_lt (Nat.zero_lt_of_lt hroom)
  have hlen : s.simplified.length = (x :: y :: rest).length := hlits.length_eq.symm
  have hwf : WellFormed s ⟨LratChecker.computeHash s.lastId, s.simplified.length, x :: y :: rest⟩ :=
    ⟨by simp, hlits.nodup_iff.mpr hstorable.nodup, fun l hl => hstorable.known l (hlits.mem_iff.mp hl),
      .inr hlen⟩
  refine ⟨{ ({ s with clauses := clauses } : Checker).newClause with
    clauses := Buckets.push clauses ({ s with clauses := clauses } : Checker).slot s.store.length },
    x :: y :: rest, ?_, ?_, hlits, ?_, ?_, fun ks hks => ?_⟩
  · rw [insert, run_read_bind, run_bind, henlarge, andThen_ok, run_bind, decide_eq_true hmod, run_require_true,
      andThen_ok, run_modify]
  · have hassigned : Assigned s := h.assigned
    have hfalse : ∀ z, s.vals z = 0 → -z ∉ s.trail := fun z hz => (hassigned.zero.mp hz).2
    have hrearranged := h.toTabled.perm hperm hroom.le
    have hsize : s.simplified.length ≠ 0 := by
      rw [hlen]
      simp
    simp only [newClause, hpick, pushWatch, setWatcher, List.getD_cons_zero, List.getD_cons_succ]
    refine ⟨⟨h.linked.insert hwf hlen rfl le_rfl, hassigned.congr rfl rfl le_rfl, fun l hl w hw => ?_, h.next⟩,
      hrearranged.insert hslot hroom hsize rfl rfl rfl rfl rfl, h.marks, h.consistent⟩
    have hl' : -l ∈ s.trail := List.mem_of_mem_take hl
    have hly : l ≠ y := by
      rintro rfl
      exact hfalse l hy hl'
    have hlx : l ≠ x := by
      rintro rfl
      exact hfalse l hx hl'
    simp only [Function.update_of_ne hly, Function.update_of_ne hlx] at hw
    obtain ⟨c, hc, -⟩ := h.linked.watch hw
    intro c' hc' hheed
    rw [clauseAt_append (s := s) rfl, if_neg (clauseAt_lt hc).ne] at hc'
    exact h.settled l hl w hw c' hc' hheed
  · rfl
  · intro b c hc
    simp only [newClause, hpick, pushWatch, setWatcher] at hc
    rw [clauseAt_append (s := s) rfl] at hc
    split at hc
    · cases hc
      exact .inr rfl
    · exact .inl hc
  · have hflat : (s.clauses.flatten : Multiset ℕ) = (clauses.flatten : Multiset ℕ) :=
      Multiset.coe_eq_coe.mpr hperm.symm
    have hrearranged : Holds { s with clauses := clauses } ks :=
      ⟨hplaced hks.placed, hks.keys.trans_eq (congrArg (Multiset.map s.keyAt) hflat)⟩
    have hkey : s.pendingKey = (LratChecker.computeHash s.lastId, (x :: y :: rest).toFinset) :=
      congrArg (Prod.mk _) (List.toFinset_eq_of_perm _ _ hlits.symm)
    rw [hkey]
    simp only [newClause, hpick, pushWatch, setWatcher]
    exact hrearranged.insert (c := ⟨LratChecker.computeHash s.lastId, s.simplified.length, x :: y :: rest⟩)
      (h.toTabled.perm hperm hroom.le) hslot rfl rfl rfl

end Zusat.Checker
