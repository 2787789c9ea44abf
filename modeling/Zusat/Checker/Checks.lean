import Zusat.Checker.Propagation

/-! # Checking a clause

`check` accepts a clause exactly when unit propagation over all clauses the checker heeds finds a conflict, and
leaves the values as they were. Before that the clause is sorted and cleaned, and dropped if it is true. -/

namespace Zusat.Checker
open Foundations Foundations.Prog
set_option autoImplicit false

variable {s s' s'' : Checker} {l : ℤ} {a : ℕ}

/-! ## The formula of a state -/

/-- The clauses propagation heeds and the literals assigned for good. -/
def formula (s : Checker) : List (List ℤ) :=
  ((s.store.filterMap id).filter fun c => c.size != 0 || c.literals.length == 2).map CheckerClause.literals ++
    units s.trail

theorem mem_formula {cl : List ℤ} : cl ∈ s.formula ↔
    (∃ a c, s.clauseAt a = some c ∧ Heeded c ∧ cl = c.literals) ∨ ∃ l ∈ s.trail, cl = [l] := by
  have hheed : ∀ c : CheckerClause, (c.size != 0 || c.literals.length == 2) = true ↔ Heeded c := by
    intro c
    simp [Heeded]
  rw [formula, List.mem_append, mem_units, List.mem_map]
  refine or_congr_left ⟨?_, ?_⟩
  · rintro ⟨c, hc, rfl⟩
    obtain ⟨hc, hh⟩ := List.mem_filter.mp hc
    obtain ⟨o, ho, heq⟩ := List.mem_filterMap.mp hc
    obtain rfl : o = some c := heq
    obtain ⟨a, ha⟩ := List.getElem?_of_mem ho
    exact ⟨a, c, by rw [clauseAt, ha]; rfl, (hheed c).mp hh, rfl⟩
  · rintro ⟨a, c, hc, hh, rfl⟩
    refine ⟨c, List.mem_filter.mpr ⟨?_, (hheed c).mpr hh⟩, rfl⟩
    rw [clauseAt] at hc
    have hmem : some c ∈ s.store := List.mem_of_getElem? (Option.join_eq_some_iff.mp hc)
    exact List.mem_filterMap.mpr ⟨some c, hmem, rfl⟩

theorem covers_formula (F : List (List ℤ)) : Covers (s.formula ++ F) s := fun a c hc hheed =>
  ⟨c.literals, List.mem_append_left F (mem_formula.mpr (.inl ⟨a, c, hc, hheed, rfl⟩)), fun _ => Iff.rfl⟩

theorem derived_formula (F : List (List ℤ)) : Derived (s.formula ++ F) s := fun l hl =>
  .of_unit (List.mem_append_left F (mem_formula.mpr (.inr ⟨l, hl, rfl⟩)))

/-! ## Between checks -/

/-- Everything is propagated. -/
structure Rooted (s : Checker) : Prop where
  linked : Linked s s.watchers
  assigned : Assigned s
  settled : Settled s
  next : s.nextToPropagate = s.trail.length

theorem Rooted.congr (h : Rooted s) (hvars : s.sizeVars ≤ s'.sizeVars) (hvals : s'.vals = s.vals)
    (hwatchers : s'.watchers = s.watchers) (htrail : s'.trail = s.trail)
    (hnext : s'.nextToPropagate = s.nextToPropagate) (hstore : s'.store = s.store) : Rooted s' := by
  refine ⟨?_, h.assigned.congr hvals htrail hvars, ?_, ?_⟩
  · rw [hwatchers]
    exact h.linked.congr hstore hvars
  · intro l hl w hw
    rw [htrail, hnext] at hl
    rw [hwatchers] at hw
    exact (h.settled l hl w hw).same (.of_eq hstore) fun x hx => htrail ▸ hx
  · rw [hnext, htrail, h.next]

theorem Rooted.take (h : Rooted s) : s.trail.take s.nextToPropagate = s.trail := by
  rw [h.next, List.take_length]

/-! ## Assuming and backtracking -/

/-- What assuming the negations of the literals does. -/
structure Assumed (c : List ℤ) (s s' : Checker) : Prop where
  frame : s' = { s with vals := s'.vals, trail := s'.trail }
  assigned : Assigned s'
  trail : ∃ ext, s'.trail = s.trail ++ ext ∧ ∀ x ∈ ext, -x ∈ c
  falsified : ∀ l ∈ c, -l ∈ s'.trail

theorem assume_loop {c : List ℤ} (h : Assigned s) (hknown : ∀ l ∈ c, s.known l) (hopen : ∀ l ∈ c, l ∉ s.trail)
    (hclash : ∀ l ∈ c, -l ∉ c) : Assumed c s (c.foldl (fun s lit => s.assume (-lit)) s) := by
  induction c generalizing s with
  | nil => exact ⟨rfl, h, ⟨[], by simp⟩, by simp⟩
  | cons l c ih =>
    have hknown' : ∀ x ∈ c, s.known x := fun x hx => hknown x (List.mem_cons_of_mem l hx)
    have hclash' : ∀ x ∈ c, -x ∉ c := fun x hx hneg =>
      hclash x (List.mem_cons_of_mem l hx) (List.mem_cons_of_mem l hneg)
    have hopen' : ∀ x ∈ c, x ∉ s.trail := fun x hx => hopen x (List.mem_cons_of_mem l hx)
    rw [List.foldl_cons]
    by_cases hpos : 0 < s.vals (-l)
    · have hassume : s.assume (-l) = s := if_pos hpos
      rw [hassume]
      obtain ⟨hframe, hassigned, ⟨ext, hext, hmem⟩, hfalse⟩ := ih h hknown' hopen' hclash'
      refine ⟨hframe, hassigned, ⟨ext, hext, fun x hx => List.mem_cons_of_mem l (hmem x hx)⟩, fun x hx => ?_⟩
      rcases List.mem_cons.mp hx with rfl | hx
      · rw [hext]
        exact List.mem_append_left _ (h.pos.mp hpos)
      · exact hfalse x hx
    · have hassume : s.assume (-l) = s.assign (-l) := if_neg hpos
      have hzero : s.vals (-l) = 0 := by
        refine h.zero.mpr ⟨fun hmem => hpos (h.pos.mpr hmem), ?_⟩
        rw [Int.neg_neg]
        exact hopen l List.mem_cons_self
      have hl : s.known (-l) := by
        obtain ⟨hne, hlt⟩ := hknown l List.mem_cons_self
        exact ⟨by omega, by rwa [Int.natAbs_neg]⟩
      have hopen₁ : ∀ x ∈ c, x ∉ (s.assign (-l)).trail := by
        intro x hx hmem
        rcases List.mem_append.mp hmem with hmem | hmem
        · exact hopen' x hx hmem
        · rw [List.mem_singleton.mp hmem] at hx
          exact hclash l List.mem_cons_self (List.mem_cons_of_mem l hx)
      rw [hassume]
      obtain ⟨hframe, hassigned, ⟨ext, hext, hmem⟩, hfalse⟩ := ih (h.assign hl hzero) hknown' hopen₁ hclash'
      have htrail : (s.assign (-l)).trail = s.trail ++ [-l] := rfl
      refine ⟨by rw [hframe]; rfl, hassigned, ⟨-l :: ext, ?_, fun x hx => ?_⟩, fun x hx => ?_⟩
      · rw [hext, htrail, List.append_assoc, List.singleton_append]
      · rcases List.mem_cons.mp hx with rfl | hx
        · rw [Int.neg_neg]
          exact List.mem_cons_self
        · exact List.mem_cons_of_mem l (hmem x hx)
      · rcases List.mem_cons.mp hx with rfl | hx
        · rw [hext, htrail]
          exact List.mem_append_left _ (List.mem_append_right _ List.mem_cons_self)
        · exact hfalse x hx

theorem foldl_unassign (xs : List ℤ) (vals : ℤ → ℤ) (l : ℤ) :
    xs.foldl unassign vals l = if l ∈ xs ∨ -l ∈ xs then 0 else vals l := by
  induction xs generalizing vals with
  | nil => simp
  | cons x xs ih =>
    rw [List.foldl_cons, ih]
    by_cases hxs : l ∈ xs ∨ -l ∈ xs
    · rw [if_pos hxs, if_pos (hxs.imp (List.mem_cons_of_mem x) (List.mem_cons_of_mem x))]
    · rw [if_neg hxs]
      by_cases hl : l = -x
      · rw [unassign, hl, Function.update_self, if_pos (.inr (by simp))]
      · rw [unassign, Function.update_of_ne hl]
        by_cases hlx : l = x
        · rw [hlx, Function.update_self, if_pos (.inl List.mem_cons_self)]
        · have hnot : ¬(l ∈ x :: xs ∨ -l ∈ x :: xs) := by
            simp only [List.mem_cons, not_or] at hxs ⊢
            refine ⟨⟨hlx, hxs.1⟩, fun heq => hl (by omega), hxs.2⟩
          rw [Function.update_of_ne hlx, if_neg hnot]

/-- Backtracking gives back the values. -/
theorem backtrack_vals (h : Assigned s) (h' : Assigned s') {ext : List ℤ} (htrail : s'.trail = s.trail ++ ext) :
    (s'.backtrack s.trail.length).vals = s.vals ∧ (s'.backtrack s.trail.length).trail = s.trail := by
  have htake : s'.trail.take s.trail.length = s.trail := by rw [htrail, List.take_left]
  have hdrop : s'.trail.drop s.trail.length = ext := by rw [htrail, List.drop_left]
  refine ⟨funext fun l => ?_, htake⟩
  have hnodup := h'.nodup
  rw [htrail, List.nodup_append'] at hnodup
  have hdisjoint : ∀ x ∈ ext, x ∉ s.trail := fun x hx hmem => hnodup.2.2 hmem hx
  have hopposite : ∀ x ∈ ext, -x ∉ s.trail := by
    intro x hx hmem
    have hx' : x ∈ s'.trail := htrail ▸ List.mem_append_right _ hx
    exact h'.consistent x hx' (htrail ▸ List.mem_append_left _ hmem)
  rw [backtrack, hdrop]
  simp only
  rw [foldl_unassign, h.vals, h'.vals, htrail]
  simp only [List.mem_reverse, List.mem_append]
  by_cases hl : l ∈ ext
  · rw [if_pos (.inl hl), if_neg (hdisjoint l hl), if_neg (hopposite l hl)]
  · by_cases hneg : -l ∈ ext
    · have hpos := hopposite _ hneg
      rw [Int.neg_neg] at hpos
      rw [if_pos (.inr hneg), if_neg hpos, if_neg (hdisjoint _ hneg)]
    · simp [hl, hneg]

/-! ## `check` -/

/-- What `check` changes. -/
structure Checked (s s' : Checker) : Prop where
  frame : s' = { s with watchers := s'.watchers, store := s'.store }
  length : s'.store.length = s.store.length
  store : SameStore s s'

theorem Rooted.assume (h : Rooted s) {c : List ℤ} (hs' : Assumed c s s') :
    Propagating (s.formula ++ units (negations c)) s' := by
  obtain ⟨hframe, hassigned, ⟨ext, hext, hmem⟩, hfalse⟩ := hs'
  have hstore : SameStore s s' := .of_eq (by rw [hframe])
  have hwatchers : s'.watchers = s.watchers := by rw [hframe]
  have hnext : s'.nextToPropagate = s.trail.length := by rw [hframe]; exact h.next
  refine ⟨?_, hassigned, (covers_formula _).same hstore, fun x hx => ?_, fun x hx w hw => ?_, ?_⟩
  · rw [hwatchers]
    exact h.linked.congr (by rw [hframe]) (by rw [hframe])
  · rw [hext] at hx
    rcases List.mem_append.mp hx with hx | hx
    · exact derived_formula _ x hx
    · exact .of_unit (List.mem_append_right _ (mem_units.mpr ⟨x, mem_negations.mpr (hmem x hx), rfl⟩))
  · rw [hnext, hext, List.take_left] at hx
    rw [hwatchers] at hw
    refine (h.settled x ?_ w hw).same hstore ?_
    · rwa [h.take]
    · rw [hext]
      exact List.subset_append_left _ _
  · rw [hnext, hext, List.length_append]
    exact Nat.le_add_right _ _

/-- After a check everything is as before, but for watches that have moved. -/
theorem Rooted.back (h : Rooted s) {c : List ℤ} (hs' : Assumed c s s') (hmoved : Propagated s' s'')
    (hlinked : Linked s'' s''.watchers) (hassigned : Assigned s'') :
    Checked s (s''.backtrack s.nextToPropagate) ∧ Rooted (s''.backtrack s.nextToPropagate) := by
  obtain ⟨hframe, -, ⟨ext, hext, -⟩, -⟩ := hs'
  obtain ⟨ext', hext'⟩ := hmoved.trail
  have htrail : s''.trail = s.trail ++ (ext ++ ext') := by rw [← hext', hext, List.append_assoc]
  obtain ⟨hvals, hback⟩ := backtrack_vals h.assigned hassigned htrail
  rw [← h.next] at hvals hback
  have hstore : SameStore s (s''.backtrack s.nextToPropagate) := by
    have hfirst : SameStore s s' := .of_eq (by rw [hframe])
    exact hfirst.trans hmoved.store
  have hfix : s''.backtrack s.nextToPropagate = { s with
      watchers := (s''.backtrack s.nextToPropagate).watchers
      store := (s''.backtrack s.nextToPropagate).store } := by
    have heq : s''.backtrack s.nextToPropagate = { s with
        vals := (s''.backtrack s.nextToPropagate).vals
        trail := (s''.backtrack s.nextToPropagate).trail
        watchers := (s''.backtrack s.nextToPropagate).watchers
        store := (s''.backtrack s.nextToPropagate).store } := by
      rw [hmoved.frame, hframe]
      rfl
    rw [hvals, hback] at heq
    exact heq
  have hvars : (s''.backtrack s.nextToPropagate).sizeVars = s.sizeVars := by rw [hfix]
  refine ⟨⟨hfix, ?_, hstore⟩, ⟨hlinked.congr rfl le_rfl, ⟨?_, ?_, ?_, ?_⟩, ?_, ?_⟩⟩
  · have hlen : s'.store.length = s.store.length := by rw [hframe]
    exact hmoved.length.trans hlen
  · rw [hvals, hback]
    exact h.assigned.vals
  · rw [hback]
    exact h.assigned.consistent
  · rw [hback]
    exact h.assigned.nodup
  · rw [hback]
    exact fun l hl => (h.assigned.known l hl).mono hvars.ge
  · intro l hl w hw
    have hl : -l ∈ s.trail := by
      rw [hback] at hl
      exact List.mem_of_mem_take hl
    have hsame : s''.watchers l = s.watchers l := by
      have hwatchers : s'.watchers = s.watchers := by rw [hframe]
      rw [hmoved.watchers l, hwatchers]
      have hnext : s'.nextToPropagate = s.trail.length := by rw [hframe]; exact h.next
      rwa [hnext, hext, List.take_left]
    have hw : w ∈ s.watchers l := hsame ▸ hw
    exact (h.settled l (by rwa [h.take]) w hw).same hstore fun x hx => hback ▸ hx
  · rw [hback]
    exact h.next

/-- `check` finds out whether unit propagation leads to a conflict, and does nothing else. -/
theorem check_spec (h : Rooted s) (hconsistent : s.inconsistent = false)
    (hknown : ∀ l ∈ s.simplified, s.known l) (hopen : ∀ l ∈ s.simplified, l ∉ s.trail)
    (hclash : ∀ l ∈ s.simplified, -l ∉ s.simplified) :
    ∃ ok s', check s = some (ok, s') ∧ Checked s s' ∧ Rooted s' ∧ (ok = true ↔ Rup s.formula s.simplified) := by
  have hassumed := assume_loop h.assigned hknown hopen hclash
  obtain ⟨ok, s₂, hrun, hfinished⟩ := propagate_spec (h.assume hassumed)
  obtain ⟨hchecked, hrooted⟩ := h.back hassumed hfinished.moved hfinished.linked hfinished.assigned
  refine ⟨!ok, _, ?_, hchecked, hrooted, ?_⟩
  · rw [check, hconsistent, if_neg Bool.false_ne_true, hrun]
    rfl
  cases ok with
  | false => exact ⟨fun _ => hfinished.conflict rfl, fun _ => rfl⟩
  | true =>
    refine ⟨fun hfalse => absurd hfalse (by decide), fun hrup => absurd hrup ?_⟩
    obtain ⟨hsettled, hnext⟩ := hfinished.settled rfl
    have htrail := hfinished.moved.trail.subset
    obtain ⟨hframe, -, ⟨ext, hext, -⟩, hfalse⟩ := hassumed
    have hstore : SameStore s s₂ := SameStore.trans (.of_eq (by rw [hframe])) hfinished.moved.store
    -- a unit on the trail is neither forced again nor false
    have hunit : ∀ x ∈ s₂.trail, (∀ l ∈ [x], l ∈ s₂.trail) ∧ ∃ y ∈ [x], -y ∉ s₂.trail := by
      intro x hx
      refine ⟨fun l hl => ?_, x, List.mem_cons_self, hfinished.assigned.consistent x hx⟩
      rwa [List.mem_singleton.mp hl]
    have hall : ∀ cl ∈ s.formula ++ units (negations s.simplified),
        (∀ l ∈ cl, (∀ x ∈ cl, x ≠ l → -x ∈ s₂.trail) → l ∈ s₂.trail) ∧ ∃ x ∈ cl, -x ∉ s₂.trail := by
      intro cl hcl
      rcases List.mem_append.mp hcl with hcl | hcl
      · rcases mem_formula.mp hcl with ⟨a, c, hc, hheed, rfl⟩ | ⟨x, hx, rfl⟩
        · obtain ⟨d, hd, hcd⟩ := hstore.forth hc
          obtain ⟨hforced, y, hy, hyneg⟩ := settled_closed hfinished.linked hfinished.assigned hsettled hnext hd
            (hcd.heeded.mpr hheed)
          refine ⟨fun l hl hothers => ?_, y, hcd.literals.mem_iff.mp hy, hyneg⟩
          exact hforced l (hcd.literals.mem_iff.mpr hl) fun x hx => hothers x (hcd.literals.mem_iff.mp hx)
        · have hmem : x ∈ s₂.trail := htrail (hext ▸ List.mem_append_left _ hx)
          exact ⟨fun l hl _ => (hunit x hmem).1 l hl, (hunit x hmem).2⟩
      · obtain ⟨x, hx, rfl⟩ := mem_units.mp hcl
        have hmem : x ∈ s₂.trail := by
          have hneg := hfalse (-x) (mem_negations.mp hx)
          rw [Int.neg_neg] at hneg
          exact htrail hneg
        exact ⟨fun l hl _ => (hunit x hmem).1 l hl, (hunit x hmem).2⟩
    exact not_conflicts_of_closed (fun cl hcl => (hall cl hcl).1) fun cl hcl => (hall cl hcl).2

end Zusat.Checker
