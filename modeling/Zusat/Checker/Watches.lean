import Zusat.Foundations.Trails
import Zusat.Model.Checker

/-! # Values, clauses and watches

Values are read off the trail. Every watch is one of the first two literals of its clause, and both of them
are watched in every clause that propagation heeds: the clauses that are no garbage, and binary clauses even
if they are, as propagation does not look at them. -/

namespace Zusat.Checker
open Foundations Foundations.Prog
set_option autoImplicit false

variable {s s' : Checker} {l p : ℤ} {a : ℕ}

/-- The literal has a place in the arrays. -/
def known (s : Checker) (l : ℤ) : Prop := l ≠ 0 ∧ l.natAbs < s.sizeVars

/-! ## Values -/

structure Assigned (s : Checker) : Prop where
  vals : ∀ l, s.vals l = if l ∈ s.trail then 1 else if -l ∈ s.trail then -1 else 0
  consistent : ∀ l ∈ s.trail, -l ∉ s.trail
  nodup : s.trail.Nodup
  known : ∀ l ∈ s.trail, s.known l

theorem known.mono (h : s.known l) (hvars : s.sizeVars ≤ s'.sizeVars) : s'.known l :=
  ⟨h.1, Nat.lt_of_lt_of_le h.2 hvars⟩

/-- Only values, trail and the number of variables count. -/
theorem Assigned.congr (h : Assigned s) (hvals : s'.vals = s.vals) (htrail : s'.trail = s.trail)
    (hvars : s.sizeVars ≤ s'.sizeVars) : Assigned s' := by
  refine ⟨?_, ?_, ?_, ?_⟩
  · rw [hvals, htrail]
    exact h.vals
  · rw [htrail]
    exact h.consistent
  · rw [htrail]
    exact h.nodup
  · rw [htrail]
    exact fun l hl => (h.known l hl).mono hvars

theorem Assigned.pos (h : Assigned s) : 0 < s.vals l ↔ l ∈ s.trail := by
  rw [h.vals]
  split
  · next hl => simp [hl]
  · next hl =>
    split
    · simp [hl]
    · simp [hl]

theorem Assigned.neg (h : Assigned s) : s.vals l < 0 ↔ -l ∈ s.trail := by
  rw [h.vals]
  split
  · next hl => simp [h.consistent l hl]
  · split
    · next hneg => simp [hneg]
    · next hneg => simp [hneg]

theorem Assigned.zero (h : Assigned s) : s.vals l = 0 ↔ l ∉ s.trail ∧ -l ∉ s.trail := by
  rw [← h.pos, ← h.neg]
  omega

theorem Assigned.assign (h : Assigned s) (hl : s.known l) (hzero : s.vals l = 0) : Assigned (s.assign l) := by
  obtain ⟨hpos, hneg⟩ := h.zero.mp hzero
  have hne : l ≠ -l := by
    have := hl.1
    omega
  refine ⟨fun x => ?_, fun x hx => ?_, ?_, fun x hx => ?_⟩
  · simp only [Checker.assign, List.mem_append, List.mem_singleton]
    by_cases hxl : x = l
    · rw [hxl, Function.update_of_ne hne, Function.update_self, if_pos (.inr rfl)]
    · by_cases hxneg : x = -l
      · rw [hxneg, Function.update_self, Int.neg_neg, if_neg (by simp [hneg, hne.symm]), if_pos (.inr rfl)]
      · have hx : -x ≠ l := fun heq => hxneg (by omega)
        rw [Function.update_of_ne hxneg, Function.update_of_ne hxl, h.vals]
        simp [hxl, hx]
  · simp only [Checker.assign, List.mem_append, List.mem_singleton] at hx ⊢
    intro hmem
    rcases hx with hx | rfl
    · rcases hmem with hmem | hmem
      · exact h.consistent x hx hmem
      · have hxl : x = -l := by omega
        exact hneg (hxl ▸ hx)
    · rcases hmem with hmem | hmem
      · exact hneg hmem
      · exact hne hmem.symm
  · refine List.nodup_append'.mpr ⟨h.nodup, List.nodup_singleton l, ?_⟩
    intro x hx hxl
    rw [List.mem_singleton.mp hxl] at hx
    exact hpos hx
  · rcases List.mem_append.mp hx with hx | hx
    · exact h.known x hx
    · rw [List.mem_singleton.mp hx]
      exact hl

/-- There is one assigned literal for every variable at most. -/
theorem Assigned.length_le (h : Assigned s) : s.trail.length ≤ s.sizeVars := by
  have hnodup : (s.trail.map Int.natAbs).Nodup := by
    refine List.Nodup.map_on (fun x hx y hy heq => ?_) h.nodup
    rcases Int.natAbs_eq_natAbs_iff.mp heq with heq | heq
    · exact heq
    · rw [heq] at hx
      exact absurd hx (h.consistent y hy)
  have hsub : s.trail.map Int.natAbs ⊆ List.range s.sizeVars := by
    intro v hv
    obtain ⟨x, hx, rfl⟩ := List.mem_map.mp hv
    exact List.mem_range.mpr (h.known x hx).2
  simpa using (List.subperm_of_subset hnodup hsub).length_le

/-! ## Clauses -/

structure WellFormed (s : Checker) (c : CheckerClause) : Prop where
  two : 2 ≤ c.literals.length
  nodup : c.literals.Nodup
  known : ∀ l ∈ c.literals, s.known l
  size : c.size = 0 ∨ c.size = c.literals.length

/-- `propagate` looks at the clause when one of its watches becomes false. -/
def Heeded (c : CheckerClause) : Prop := c.size ≠ 0 ∨ c.literals.length = 2

/-- One of the first two literals. -/
def Watching (c : CheckerClause) (l : ℤ) : Prop := c.literals.getD 0 0 = l ∨ c.literals.getD 1 0 = l

theorem WellFormed.split {c : CheckerClause} (h : WellFormed s c) :
    ∃ x y rest, c.literals = x :: y :: rest ∧ x ≠ y ∧ x ∉ rest ∧ y ∉ rest ∧ rest.Nodup := by
  have htwo := h.two
  have hnodup := h.nodup
  match hlits : c.literals with
  | [] => rw [hlits] at htwo; simp at htwo
  | [x] => rw [hlits] at htwo; simp at htwo
  | x :: y :: rest =>
    rw [hlits] at hnodup
    simp only [List.nodup_cons, List.mem_cons, not_or] at hnodup
    exact ⟨x, y, rest, rfl, hnodup.1.1, hnodup.1.2, hnodup.2.1, hnodup.2.2⟩

theorem watching_cons {c : CheckerClause} {x y : ℤ} {rest : List ℤ} (h : c.literals = x :: y :: rest) :
    Watching c l ↔ x = l ∨ y = l := by
  rw [Watching, h]
  rfl

theorem Watching.mem {c : CheckerClause} (h : WellFormed s c) (hl : Watching c l) : l ∈ c.literals := by
  obtain ⟨x, y, rest, heq, -⟩ := h.split
  rw [heq]
  rcases (watching_cons heq).mp hl with rfl | rfl
  · exact List.mem_cons_self
  · exact List.mem_cons_of_mem _ List.mem_cons_self

theorem xor_xor_left (m n : ℤ) : Int.xor (Int.xor m n) m = n := by
  have hnat : ∀ i j : ℕ, i ^^^ j ^^^ i = j := fun i j => by
    rw [Nat.xor_comm i j, Nat.xor_assoc, Nat.xor_self, Nat.xor_zero]
  cases m <;> cases n <;> simp [Int.xor, hnat]

theorem xor_xor_right (m n : ℤ) : Int.xor (Int.xor m n) n = m := by
  have hcomm : Int.xor m n = Int.xor n m := by
    cases m <;> cases n <;> simp [Int.xor, Nat.xor_comm]
  rw [hcomm, xor_xor_left]

/-- The other of the first two literals. -/
theorem xor_other {c : CheckerClause} (h : WellFormed s c) (hp : Watching c p) :
    ∃ other rest, Int.xor (Int.xor (c.literals.getD 0 0) (c.literals.getD 1 0)) p = other ∧
      c.literals.drop 2 = rest ∧ c.literals.Perm (other :: p :: rest) ∧ other ≠ p ∧ other ∉ rest ∧ p ∉ rest ∧
      rest.Nodup ∧ ∀ l, Watching c l ↔ other = l ∨ p = l := by
  obtain ⟨x, y, rest, heq, hne, hx, hy, hrest⟩ := h.split
  rw [heq]
  rcases (watching_cons heq).mp hp with rfl | rfl
  · refine ⟨y, rest, xor_xor_left x y, rfl, List.Perm.swap _ _ _, Ne.symm hne, hy, hx, hrest, fun l => ?_⟩
    rw [watching_cons heq, or_comm]
  · exact ⟨x, rest, xor_xor_right x y, rfl, .rfl, hne, hx, hy, hrest, fun l => watching_cons heq⟩

/-- Exchanging an element with the head keeps the elements. -/
theorem swap_set {rest : List ℤ} {k : ℕ} (hk : k < rest.length) (p : ℤ) :
    (rest[k] :: rest.set k p).Perm (p :: rest) := by
  have hzero : 0 < (p :: rest).length := by simp
  have hplace : k + 1 < (p :: rest).length := by simpa using hk
  have hperm := List.set_set_perm hzero hplace
  simpa using hperm

/-! ## The store -/

theorem clauseAt_lt {c : CheckerClause} (h : s.clauseAt a = some c) : a < s.store.length := by
  by_contra hge
  rw [clauseAt, List.getElem?_eq_none (not_lt.mp hge)] at h
  cases h

theorem clauseAt_setClause {b : ℕ} {o : Option CheckerClause} (ha : a < s.store.length) :
    (s.setClause a o).clauseAt b = if b = a then o else s.clauseAt b := by
  rw [setClause, clauseAt, clauseAt, List.getElem?_set]
  by_cases hb : b = a
  · rw [if_pos hb.symm, if_pos hb, if_pos ha]
    rfl
  · rw [if_neg (Ne.symm hb), if_neg hb]

/-- The clause is the same but for the order of its literals. -/
structure SameClause (c d : CheckerClause) : Prop where
  hash : d.hash = c.hash
  size : d.size = c.size
  literals : d.literals.Perm c.literals

def SameStore (s s' : Checker) : Prop := ∀ a, (s.clauseAt a = none ∧ s'.clauseAt a = none) ∨
  ∃ c d, s.clauseAt a = some c ∧ s'.clauseAt a = some d ∧ SameClause c d

theorem SameClause.refl (c : CheckerClause) : SameClause c c := ⟨rfl, rfl, .rfl⟩

theorem SameClause.trans {c d e : CheckerClause} (h : SameClause c d) (h' : SameClause d e) : SameClause c e :=
  ⟨h'.hash.trans h.hash, h'.size.trans h.size, h'.literals.trans h.literals⟩

theorem SameClause.heeded {c d : CheckerClause} (h : SameClause c d) : Heeded d ↔ Heeded c := by
  rw [Heeded, Heeded, h.size, h.literals.length_eq]

theorem WellFormed.mono {c : CheckerClause} (h : WellFormed s c) (hvars : s.sizeVars ≤ s'.sizeVars) :
    WellFormed s' c :=
  ⟨h.two, h.nodup, fun l hl => (h.known l hl).mono hvars, h.size⟩

theorem WellFormed.same {c d : CheckerClause} (h : WellFormed s c) (hcd : SameClause c d) : WellFormed s d := by
  refine ⟨?_, hcd.literals.nodup_iff.mpr h.nodup, fun l hl => h.known l (hcd.literals.mem_iff.mp hl), ?_⟩
  · rw [hcd.literals.length_eq]
    exact h.two
  · rw [hcd.size, hcd.literals.length_eq]
    exact h.size

theorem SameStore.of_eq (h : s'.store = s.store) : SameStore s s' := by
  intro a
  have heq : s'.clauseAt a = s.clauseAt a := by rw [clauseAt, clauseAt, h]
  rw [heq]
  cases hc : s.clauseAt a with
  | none => exact .inl ⟨rfl, rfl⟩
  | some c => exact .inr ⟨c, c, rfl, rfl, .refl c⟩

theorem SameStore.trans {s'' : Checker} (h : SameStore s s') (h' : SameStore s' s'') : SameStore s s'' := by
  intro a
  rcases h a with ⟨hn, hn'⟩ | ⟨c, d, hc, hd, hcd⟩
  · rcases h' a with ⟨-, hn''⟩ | ⟨c, d, hc, -, -⟩
    · exact .inl ⟨hn, hn''⟩
    · rw [hn'] at hc
      cases hc
  · rcases h' a with ⟨hn', -⟩ | ⟨d', e, hd', he, hde⟩
    · rw [hn'] at hd
      cases hd
    · rw [hd] at hd'
      cases hd'
      exact .inr ⟨c, e, hc, he, hcd.trans hde⟩

theorem SameStore.back (h : SameStore s s') {d : CheckerClause} (hd : s'.clauseAt a = some d) :
    ∃ c, s.clauseAt a = some c ∧ SameClause c d := by
  rcases h a with ⟨-, hn⟩ | ⟨c, d', hc, hd', hcd⟩
  · rw [hn] at hd
    cases hd
  · rw [hd] at hd'
    cases hd'
    exact ⟨c, hc, hcd⟩

theorem SameStore.forth (h : SameStore s s') {c : CheckerClause} (hc : s.clauseAt a = some c) :
    ∃ d, s'.clauseAt a = some d ∧ SameClause c d := by
  rcases h a with ⟨hn, -⟩ | ⟨c', d, hc', hd, hcd⟩
  · rw [hn] at hc
    cases hc
  · rw [hc] at hc'
    cases hc'
    exact ⟨d, hd, hcd⟩

theorem sameStore_setClause {c d : CheckerClause} (hc : s.clauseAt a = some c) (hcd : SameClause c d) :
    SameStore s (s.setClause a (some d)) := by
  intro b
  rw [clauseAt_setClause (clauseAt_lt hc)]
  by_cases hb : b = a
  · rw [if_pos hb, hb]
    exact .inr ⟨c, d, hc, rfl, hcd⟩
  · rw [if_neg hb]
    cases hb' : s.clauseAt b with
    | none => exact .inl ⟨rfl, rfl⟩
    | some e => exact .inr ⟨e, e, rfl, rfl, .refl e⟩

/-! ## Watches -/

/-- The watches `W` belong to the clauses of the store. -/
structure Linked (s : Checker) (W : ℤ → List CheckerWatch) : Prop where
  clause : ∀ {a c}, s.clauseAt a = some c → WellFormed s c
  watch : ∀ {l w}, w ∈ W l → ∃ c, s.clauseAt w.clause = some c ∧ w.size = c.literals.length ∧
    w.blit ∈ c.literals ∧ w.blit ≠ l ∧ Watching c l
  unique : ∀ l, ((W l).map CheckerWatch.clause).Nodup
  watched : ∀ {a c}, s.clauseAt a = some c → Heeded c → ∀ {l}, Watching c l → ∃ w ∈ W l, w.clause = a

section Linked
variable {W : ℤ → List CheckerWatch}

theorem Linked.congr (h : Linked s W) (hstore : s'.store = s.store) (hvars : s.sizeVars ≤ s'.sizeVars) :
    Linked s' W := by
  have hat : ∀ a, s'.clauseAt a = s.clauseAt a := fun a => by rw [clauseAt, clauseAt, hstore]
  refine ⟨fun {a c} hc => ?_, fun {l w} hw => ?_, h.unique, fun {a c} hc hheed {l} hl => ?_⟩
  · rw [hat] at hc
    exact (h.clause hc).mono hvars
  · obtain ⟨c, hc, hrest⟩ := h.watch hw
    exact ⟨c, by rw [hat]; exact hc, hrest⟩
  · rw [hat] at hc
    exact h.watched hc hheed hl

/-- A watch of a clause that is not heeded can be dropped. -/
theorem Linked.drop {kept ws : List CheckerWatch} {w : CheckerWatch} {c : CheckerClause}
    (h : Linked s (Function.update W p (kept ++ w :: ws))) (hc : s.clauseAt w.clause = some c)
    (hnot : ¬Heeded c) : Linked s (Function.update W p (kept ++ ws)) := by
  have hsub : ∀ l, (Function.update W p (kept ++ ws) l).Sublist (Function.update W p (kept ++ w :: ws) l) := by
    intro l
    by_cases hl : l = p
    · rw [hl, Function.update_self, Function.update_self]
      exact (List.Sublist.refl kept).append (List.sublist_cons_self w ws)
    · rw [Function.update_of_ne hl, Function.update_of_ne hl]
  refine ⟨h.clause, fun hw => h.watch ((hsub _).subset hw), fun l => ?_, fun {a d} hd hheed {l} hl => ?_⟩
  · exact (h.unique l).sublist ((hsub l).map _)
  · obtain ⟨w', hw', ha⟩ := h.watched hd hheed hl
    refine ⟨w', ?_, ha⟩
    have hne : w' ≠ w := by
      rintro rfl
      rw [ha, hd] at hc
      cases hc
      exact hnot hheed
    by_cases hlp : l = p
    · rw [hlp, Function.update_self] at hw' ⊢
      simpa [hne] using hw'
    · rwa [Function.update_of_ne hlp] at hw' ⊢

/-- The blocking literal of a watch can be any other literal of its clause. -/
theorem Linked.setBlit {kept ws : List CheckerWatch} {w : CheckerWatch} {c : CheckerClause} {other : ℤ}
    (h : Linked s (Function.update W p (kept ++ w :: ws))) (hc : s.clauseAt w.clause = some c)
    (hother : other ∈ c.literals) (hne : other ≠ p) :
    Linked s (Function.update W p (kept ++ { w with blit := other } :: ws)) := by
  refine ⟨h.clause, fun {l v} hv => ?_, fun l => ?_, fun {a d} hd hheed {l} hl => ?_⟩
  · by_cases hlp : l = p
    · rw [hlp, Function.update_self] at hv
      have hold := fun {v} (hmem : v ∈ kept ++ w :: ws) =>
        h.watch (l := p) (w := v) (by rw [Function.update_self]; exact hmem)
      rcases List.mem_append.mp hv with hv | hv
      · rw [hlp]
        exact hold (List.mem_append_left _ hv)
      · rcases List.mem_cons.mp hv with rfl | hv
        · obtain ⟨c', hc', hsize, -, -, hwatch⟩ := hold (List.mem_append_right kept List.mem_cons_self)
          rw [hc] at hc'
          cases hc'
          rw [hlp]
          exact ⟨c, hc, hsize, hother, hne, hwatch⟩
        · rw [hlp]
          exact hold (List.mem_append_right kept (List.mem_cons_of_mem w hv))
    · rw [Function.update_of_ne hlp] at hv
      exact h.watch (by rw [Function.update_of_ne hlp]; exact hv)
  · by_cases hlp : l = p
    · have hu := h.unique p
      rw [hlp]
      rw [Function.update_self] at hu ⊢
      simpa using hu
    · have hu := h.unique l
      rwa [Function.update_of_ne hlp] at hu ⊢
  · obtain ⟨v, hv, ha⟩ := h.watched hd hheed hl
    by_cases hlp : l = p
    · rw [hlp, Function.update_self] at hv ⊢
      rcases List.mem_append.mp hv with hv | hv
      · exact ⟨v, List.mem_append_left _ hv, ha⟩
      · rcases List.mem_cons.mp hv with rfl | hv
        · exact ⟨_, List.mem_append_right kept List.mem_cons_self, ha⟩
        · exact ⟨v, List.mem_append_right kept (List.mem_cons_of_mem _ hv), ha⟩
    · rw [Function.update_of_ne hlp] at hv ⊢
      exact ⟨v, hv, ha⟩

/-- The literals of a clause can be permuted as long as the first two stay the first two. -/
theorem Linked.reorder {c d : CheckerClause} (h : Linked s W) (hc : s.clauseAt a = some c)
    (hcd : SameClause c d) (hwatch : ∀ l, Watching d l ↔ Watching c l) :
    Linked (s.setClause a (some d)) W := by
  have hwf := (h.clause hc).same hcd
  have hat : ∀ {b e}, (s.setClause a (some d)).clauseAt b = some e → (b = a ∧ e = d) ∨ s.clauseAt b = some e := by
    intro b e he
    rw [clauseAt_setClause (clauseAt_lt hc)] at he
    split at he
    · next hb => exact .inl ⟨hb, (Option.some.inj he).symm⟩
    · exact .inr he
  refine ⟨fun {b e} he => ?_, fun {l w} hw => ?_, h.unique, fun {b e} he hheed {l} hl => ?_⟩
  · rcases hat he with ⟨-, rfl⟩ | he
    · exact hwf.mono le_rfl
    · exact (h.clause he).mono le_rfl
  · obtain ⟨c', hc', hsize, hblit, hne, hl⟩ := h.watch hw
    by_cases hw' : w.clause = a
    · rw [hw', hc] at hc'
      cases hc'
      refine ⟨d, by rw [clauseAt_setClause (clauseAt_lt hc), if_pos hw'], ?_, ?_, hne, (hwatch l).mpr hl⟩
      · rw [hsize, hcd.literals.length_eq]
      · exact hcd.literals.mem_iff.mpr hblit
    · exact ⟨c', by rw [clauseAt_setClause (clauseAt_lt hc), if_neg hw']; exact hc', hsize, hblit, hne, hl⟩
  · rcases hat he with ⟨rfl, rfl⟩ | he
    · exact h.watched hc (hcd.heeded.mp hheed) ((hwatch l).mp hl)
    · exact h.watched he hheed hl

/-! ### A watch moves -/

/-- `d` is `c` with its watch of `p` moved to `r`; `other` is watched by both. -/
structure Rewatches (c d : CheckerClause) (other p r : ℤ) : Prop where
  same : SameClause c d
  old : ∀ l, Watching c l ↔ other = l ∨ p = l
  new : ∀ l, Watching d l ↔ other = l ∨ r = l
  other_ne_old : other ≠ p
  new_ne_old : r ≠ p
  new_ne_other : r ≠ other

/-- The watches when `v` has been pushed to those of `r`, and `kept` and `ws` are left to `p`. -/
def movedTo (W : ℤ → List CheckerWatch) (p r : ℤ) (v : CheckerWatch) (ws : List CheckerWatch) :
    ℤ → List CheckerWatch :=
  Function.update (Function.update W r (W r ++ [v])) p ws

theorem movedTo_old {v : CheckerWatch} {ws : List CheckerWatch} {r : ℤ} : movedTo W p r v ws p = ws :=
  Function.update_self ..

theorem movedTo_new {v : CheckerWatch} {ws : List CheckerWatch} {r : ℤ} (hrp : r ≠ p) :
    movedTo W p r v ws r = W r ++ [v] := by
  rw [movedTo, Function.update_of_ne hrp, Function.update_self]

theorem movedTo_of_ne {v : CheckerWatch} {ws : List CheckerWatch} {r : ℤ} (hp : l ≠ p) (hr : l ≠ r) :
    movedTo W p r v ws l = W l := by
  rw [movedTo, Function.update_of_ne hp, Function.update_of_ne hr]

/-- A literal the clause does not watch has no watch of it. -/
theorem Linked.not_mem (h : Linked s W) {c : CheckerClause} (hc : s.clauseAt a = some c)
    (hl : ¬Watching c l) : a ∉ (W l).map CheckerWatch.clause := by
  intro hmem
  obtain ⟨v, hv, rfl⟩ := List.mem_map.mp hmem
  obtain ⟨c', hc', -, -, -, hwatch⟩ := h.watch hv
  rw [hc] at hc'
  cases hc'
  exact hl hwatch

section Replace
variable {kept ws : List CheckerWatch} {w : CheckerWatch} {c d : CheckerClause} {other r : ℤ}

/-- The other watches of the literal belong to other clauses, each to its own. -/
theorem Linked.others (h : Linked s (Function.update W p (kept ++ w :: ws))) :
    w.clause ∉ (kept ++ ws).map CheckerWatch.clause ∧
      ((kept ++ ws).map CheckerWatch.clause).Nodup := by
  have hunique := h.unique p
  rw [Function.update_self, List.map_append, List.map_cons, List.nodup_middle] at hunique
  rw [List.map_append]
  exact List.nodup_cons.mp hunique

theorem Linked.not_watched_new (h : Linked s (Function.update W p (kept ++ w :: ws)))
    (hc : s.clauseAt w.clause = some c) (hcd : Rewatches c d other p r) :
    w.clause ∉ (W r).map CheckerWatch.clause := by
  have hnot := h.not_mem (l := r) hc fun hl => ?_
  · rwa [Function.update_of_ne hcd.new_ne_old] at hnot
  · rcases (hcd.old r).mp hl with heq | heq
    · exact hcd.new_ne_other heq.symm
    · exact hcd.new_ne_old heq.symm

/-- A watch of another clause says what it said. -/
theorem Linked.keeps_watch (h : Linked s W) (hc : s.clauseAt a = some c) {v : CheckerWatch}
    (hv : v ∈ W l) (hne : v.clause ≠ a) :
    ∃ e, (s.setClause a (some d)).clauseAt v.clause = some e ∧ v.size = e.literals.length ∧
      v.blit ∈ e.literals ∧ v.blit ≠ l ∧ Watching e l := by
  obtain ⟨e, he, hrest⟩ := h.watch hv
  exact ⟨e, by rw [clauseAt_setClause (clauseAt_lt hc), if_neg hne]; exact he, hrest⟩

theorem Linked.replace_watch (h : Linked s (Function.update W p (kept ++ w :: ws)))
    (hc : s.clauseAt w.clause = some c) (hsize : c.size ≠ 0) (hcd : Rewatches c d other p r)
    {v : CheckerWatch} (hv : v ∈ movedTo W p r ⟨p, d.size, w.clause⟩ (kept ++ ws) l) :
    ∃ e, (s.setClause w.clause (some d)).clauseAt v.clause = some e ∧ v.size = e.literals.length ∧
      v.blit ∈ e.literals ∧ v.blit ≠ l ∧ Watching e l := by
  have hwf := h.clause hc
  have hat : (s.setClause w.clause (some d)).clauseAt w.clause = some d := by
    rw [clauseAt_setClause (clauseAt_lt hc), if_pos rfl]
  by_cases hlp : l = p
  · rw [hlp, movedTo_old] at hv
    have hne : v.clause ≠ w.clause := fun heq => h.others.1 (heq ▸ List.mem_map_of_mem hv)
    refine h.keeps_watch hc ?_ hne
    rw [hlp, Function.update_self]
    exact List.mem_append.mpr ((List.mem_append.mp hv).imp_right (List.mem_cons_of_mem w))
  by_cases hlr : l = r
  · rw [hlr, movedTo_new hcd.new_ne_old] at hv
    rw [hlr]
    rcases List.mem_append.mp hv with hv | hv
    · refine h.keeps_watch hc ?_ fun heq =>
        h.not_watched_new hc hcd (heq ▸ List.mem_map_of_mem hv)
      rwa [Function.update_of_ne hcd.new_ne_old]
    · -- the watch that was pushed
      have hpmem := hcd.same.literals.mem_iff.mpr (((hcd.old p).mpr (.inr rfl)).mem hwf)
      rw [List.mem_singleton.mp hv]
      refine ⟨d, hat, ?_, hpmem, hcd.new_ne_old.symm, (hcd.new r).mpr (.inr rfl)⟩
      exact (hwf.same hcd.same).size.resolve_left fun hzero => hsize (hcd.same.size ▸ hzero)
  · rw [movedTo_of_ne hlp hlr] at hv
    have hold : v ∈ Function.update W p (kept ++ w :: ws) l := by rwa [Function.update_of_ne hlp]
    by_cases hvc : v.clause = w.clause
    · -- the other watch of the clause
      obtain ⟨e, he, hvsize, hblit, hne, hl⟩ := h.watch hold
      rw [hvc, hc] at he
      cases he
      refine ⟨d, hvc ▸ hat, ?_, hcd.same.literals.mem_iff.mpr hblit, hne, (hcd.new l).mpr ?_⟩
      · rw [hvsize, hcd.same.literals.length_eq]
      · exact .inl (((hcd.old l).mp hl).resolve_right (Ne.symm hlp))
    · exact h.keeps_watch hc hold hvc

theorem Linked.replace_unique (h : Linked s (Function.update W p (kept ++ w :: ws)))
    (hc : s.clauseAt w.clause = some c) (hcd : Rewatches c d other p r) (l : ℤ) :
    ((movedTo W p r ⟨p, d.size, w.clause⟩ (kept ++ ws) l).map CheckerWatch.clause).Nodup := by
  by_cases hlp : l = p
  · rw [hlp, movedTo_old]
    exact h.others.2
  have hunique := h.unique l
  rw [Function.update_of_ne hlp] at hunique
  by_cases hlr : l = r
  · rw [hlr] at hunique ⊢
    rw [movedTo_new hcd.new_ne_old, List.map_append]
    refine List.nodup_append'.mpr ⟨hunique, List.nodup_singleton _, fun x hx hxw => ?_⟩
    rw [List.map_singleton, List.mem_singleton] at hxw
    exact h.not_watched_new hc hcd (hxw ▸ hx)
  · rwa [movedTo_of_ne hlp hlr]

/-- The clause is watched by its other literal and by the new one. -/
theorem Linked.replace_watched_self (h : Linked s (Function.update W p (kept ++ w :: ws)))
    (hc : s.clauseAt w.clause = some c) (hsize : c.size ≠ 0) (hcd : Rewatches c d other p r)
    (hl : Watching d l) :
    ∃ v ∈ movedTo W p r ⟨p, d.size, w.clause⟩ (kept ++ ws) l, v.clause = w.clause := by
  rcases (hcd.new l).mp hl with rfl | rfl
  · obtain ⟨v, hv, hvc⟩ := h.watched hc (.inl hsize) ((hcd.old other).mpr (.inl rfl))
    rw [Function.update_of_ne hcd.other_ne_old] at hv
    exact ⟨v, by rwa [movedTo_of_ne hcd.other_ne_old (Ne.symm hcd.new_ne_other)], hvc⟩
  · refine ⟨⟨p, d.size, w.clause⟩, ?_, rfl⟩
    rw [movedTo_new hcd.new_ne_old]
    exact List.mem_append_right _ List.mem_cons_self

/-- Any other clause keeps its watches. -/
theorem Linked.replace_watched_other (h : Linked s (Function.update W p (kept ++ w :: ws)))
    (hrp : r ≠ p) {b : ℕ} {e : CheckerClause} (he : s.clauseAt b = some e) (hb : b ≠ w.clause)
    (hheed : Heeded e) (hl : Watching e l) (v : CheckerWatch) :
    ∃ u ∈ movedTo W p r v (kept ++ ws) l, u.clause = b := by
  obtain ⟨u, hu, hub⟩ := h.watched he hheed hl
  refine ⟨u, ?_, hub⟩
  have hne : u ≠ w := by
    rintro rfl
    exact hb hub.symm
  by_cases hlp : l = p
  · rw [hlp, Function.update_self] at hu
    rw [hlp, movedTo_old]
    simpa [hne] using hu
  rw [Function.update_of_ne hlp] at hu
  by_cases hlr : l = r
  · rw [hlr] at hu ⊢
    rw [movedTo_new hrp]
    exact List.mem_append_left _ hu
  · rwa [movedTo_of_ne hlp hlr]

/-- The watch of a literal that has become false moves to another one. -/
theorem Linked.replace (h : Linked s (Function.update W p (kept ++ w :: ws)))
    (hc : s.clauseAt w.clause = some c) (hsize : c.size ≠ 0) (hcd : Rewatches c d other p r) :
    Linked (s.setClause w.clause (some d)) (movedTo W p r ⟨p, d.size, w.clause⟩ (kept ++ ws)) := by
  have hat : ∀ {b e}, (s.setClause w.clause (some d)).clauseAt b = some e →
      (b = w.clause ∧ e = d) ∨ (b ≠ w.clause ∧ s.clauseAt b = some e) := by
    intro b e he
    rw [clauseAt_setClause (clauseAt_lt hc)] at he
    split at he
    · next hb => exact .inl ⟨hb, (Option.some.inj he).symm⟩
    · next hb => exact .inr ⟨hb, he⟩
  refine ⟨fun {b e} he => ?_, h.replace_watch hc hsize hcd, h.replace_unique hc hcd,
    fun {b e} he hheed {l} hl => ?_⟩
  · rcases hat he with ⟨-, rfl⟩ | ⟨-, he⟩
    · exact ((h.clause hc).same hcd.same).mono le_rfl
    · exact (h.clause he).mono le_rfl
  · rcases hat he with ⟨rfl, rfl⟩ | ⟨hb, he⟩
    · exact h.replace_watched_self hc hsize hcd hl
    · exact h.replace_watched_other hcd.new_ne_old he hb hheed hl _

end Replace

end Linked
end Zusat.Checker
