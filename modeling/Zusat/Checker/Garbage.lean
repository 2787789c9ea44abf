import Zusat.Checker.Table

/-! # Garbage

A deleted clause waits as garbage until enough clauses do; then its watches and its memory go, and so do all
clauses that are true. No address is read or freed after it has been freed. -/

namespace Zusat.Checker
open Foundations Foundations.Prog
set_option autoImplicit false

variable {s s' : Checker} {l : ℤ} {a : ℕ}

/-! ## Marking clauses as garbage -/

def CheckerClause.garbage (c : CheckerClause) : CheckerClause := { c with size := 0 }

theorem clauseAt_discard (b : ℕ) :
    (s.discard a).clauseAt b = if b = a then (s.clauseAt b).map CheckerClause.garbage else s.clauseAt b := by
  have hmodify : (s.discard a).clauseAt b = ((fun o : Option CheckerClause =>
      if a = b then o.map CheckerClause.garbage else o) <$> s.store[b]?).join :=
    congrArg Option.join (List.getElem?_modify _ _ _ _)
  rw [hmodify, clauseAt]
  by_cases hb : b = a
  · rw [if_pos hb]
    simp only [hb, if_true]
    cases s.store[a]? with
    | none => rfl
    | some o => cases o <;> rfl
  · rw [if_neg hb]
    simp only [Ne.symm hb, if_false]
    cases s.store[b]? <;> rfl

/-- The clauses `as` have become garbage, the others are as they were. -/
def Condemned (as : List ℕ) (s s' : Checker) : Prop :=
  ∀ b, s'.clauseAt b = if b ∈ as then (s.clauseAt b).map CheckerClause.garbage else s.clauseAt b

theorem condemned_discard : Condemned [a] s (s.discard a) := by
  intro b
  rw [clauseAt_discard]
  simp only [List.mem_singleton]

section Condemned
variable {as : List ℕ} {b : ℕ} {c d : CheckerClause}

/-- A clause has the literals it had, and is heeded only if it was. -/
theorem Condemned.back (h : Condemned as s s') (hd : s'.clauseAt b = some d) :
    ∃ c, s.clauseAt b = some c ∧ d.literals = c.literals ∧ (Heeded d → Heeded c) ∧
      (b ∈ as ∧ d.size = 0 ∨ b ∉ as ∧ d = c) := by
  rw [h b] at hd
  split at hd
  · next hb =>
    obtain ⟨c, hc, rfl⟩ := Option.map_eq_some_iff.mp hd
    exact ⟨c, hc, rfl, fun hheed => .inr (hheed.resolve_left fun hne => hne rfl), .inl ⟨hb, rfl⟩⟩
  · next hb => exact ⟨d, hd, rfl, id, .inr ⟨hb, rfl⟩⟩

theorem Condemned.forth (h : Condemned as s s') (hc : s.clauseAt b = some c) :
    ∃ d, s'.clauseAt b = some d ∧ d.literals = c.literals := by
  rw [h b, hc]
  split
  · exact ⟨_, rfl, rfl⟩
  · exact ⟨c, rfl, rfl⟩

theorem Condemned.hashAt (h : Condemned as s s') (b : ℕ) : s'.hashAt b = s.hashAt b := by
  rw [Checker.hashAt, Checker.hashAt, h b]
  split
  · cases s.clauseAt b <;> rfl
  · rfl

theorem Condemned.keyAt (h : Condemned as s s') (b : ℕ) : s'.keyAt b = s.keyAt b := by
  rw [Checker.keyAt, Checker.keyAt, h.hashAt, h b]
  split
  · cases s.clauseAt b <;> rfl
  · rfl

/-- Garbage keeps its watches until it is collected. -/
theorem Condemned.linked {W : ℤ → List CheckerWatch} (h : Condemned as s s') (hs : Linked s W)
    (hvars : s.sizeVars ≤ s'.sizeVars) : Linked s' W := by
  refine ⟨fun {b d} hd => ?_, fun {l w} hw => ?_, hs.unique, fun {b d} hd hheed {l} hl => ?_⟩
  · obtain ⟨c, hc, hlits, -, hsize⟩ := h.back hd
    have hwf := hs.clause hc
    refine ⟨hlits ▸ hwf.two, hlits ▸ hwf.nodup, fun l hl => ?_, ?_⟩
    · exact (hwf.known l (hlits ▸ hl)).mono hvars
    · rcases hsize with ⟨-, hzero⟩ | ⟨-, rfl⟩
      · exact .inl hzero
      · exact hwf.size
  · obtain ⟨c, hc, hsize, hblit, hne, hwatch⟩ := hs.watch hw
    obtain ⟨d, hd, hlits⟩ := h.forth hc
    refine ⟨d, hd, ?_, ?_, hne, ?_⟩
    · rw [hlits]
      exact hsize
    · rw [hlits]
      exact hblit
    · rw [Watching, hlits]
      exact hwatch
  · obtain ⟨c, hc, hlits, hheed', -⟩ := h.back hd
    rw [Watching, hlits] at hl
    exact hs.watched hc (hheed' hheed) hl

theorem Condemned.rooted (h : Condemned as s s') (hs : Rooted s) (hvars : s.sizeVars ≤ s'.sizeVars)
    (hvals : s'.vals = s.vals) (hwatchers : s'.watchers = s.watchers) (htrail : s'.trail = s.trail)
    (hnext : s'.nextToPropagate = s.nextToPropagate) : Rooted s' := by
  refine ⟨?_, hs.assigned.congr hvals htrail hvars, fun l hl w hw d hd hheed => ?_, ?_⟩
  · rw [hwatchers]
    exact h.linked hs.linked hvars
  · rw [htrail, hnext] at hl
    rw [hwatchers] at hw
    obtain ⟨c, hc, hlits, hheed', -⟩ := h.back hd
    rw [hlits, htrail]
    exact hs.settled l hl w hw c hc (hheed' hheed)
  · rw [hnext, htrail, hs.next]

/-- The table loses the clauses, and they wait as garbage. -/
theorem Condemned.tabled (h : Condemned as s s') (hs : Tabled s)
    (hclauses : s.clauses.flatten.Perm (as ++ s'.clauses.flatten))
    (hgarbage : s'.garbage.Perm (as ++ s.garbage)) (hlen : s'.clauses.length = s.clauses.length)
    (hnum : s'.numClauses = s.numClauses - as.length)
    (hwaiting : s'.numGarbage = s.numGarbage + as.length) : Tabled s' := by
  have hall : (s'.clauses.flatten ++ s'.garbage).Perm (s.clauses.flatten ++ s.garbage) := by
    refine (hgarbage.append_left _).trans ?_
    rw [← List.append_assoc]
    exact (List.perm_append_comm.trans hclauses.symm).append_right _
  have hdisjoint : as.Disjoint s'.clauses.flatten :=
    (List.nodup_append'.mp (hclauses.nodup_iff.mp (List.nodup_append'.mp hs.nodup).1)).2.2
  have hcount := hclauses.length_eq
  rw [List.length_append, ← hs.count] at hcount
  have hload := hs.load
  refine ⟨hall.nodup_iff.mpr hs.nodup, fun b => ?_, fun b d hd => ?_, ?_, ?_, ?_⟩
  · rw [hall.mem_iff, ← hs.allocated b]
    constructor
    · rintro ⟨d, hd⟩
      obtain ⟨c, hc, -⟩ := h.back hd
      exact ⟨c, hc⟩
    · rintro ⟨c, hc⟩
      obtain ⟨d, hd, -⟩ := h.forth hc
      exact ⟨d, hd⟩
  · obtain ⟨c, hc, -, -, hsize⟩ := h.back hd
    rcases hsize with ⟨hb, hzero⟩ | ⟨hb, rfl⟩
    · exact ⟨fun hne => absurd hzero hne, fun hmem => absurd hmem (hdisjoint hb)⟩
    · rw [hs.live b d hc, hclauses.mem_iff, List.mem_append]
      exact ⟨fun hor => hor.resolve_left hb, .inr⟩
  · omega
  · omega
  · rw [hwaiting, hs.waiting, hgarbage.length_eq, List.length_append, Nat.add_comm]

end Condemned

/-- Marking several clauses, one after the other. -/
theorem foldl_discard (as : List ℕ) : Condemned as s (as.foldl (fun s a => s.discard a) s) ∧
    as.foldl (fun s a => s.discard a) s = { s with
      store := (as.foldl (fun s a => s.discard a) s).store, garbage := as.reverse ++ s.garbage,
      numGarbage := s.numGarbage + as.length, numClauses := s.numClauses - as.length } := by
  induction as generalizing s with
  | nil =>
    refine ⟨fun b => ?_, by simp⟩
    rw [if_neg List.not_mem_nil]
    rfl
  | cons a as ih =>
    obtain ⟨hat, hframe⟩ := ih (s := s.discard a)
    refine ⟨fun b => ?_, ?_⟩
    · rw [List.foldl_cons, hat, clauseAt_discard]
      by_cases hb : b = a
      · rw [if_pos hb, if_pos (List.mem_cons.mpr (.inl hb))]
        split
        · cases s.clauseAt b <;> rfl
        · rfl
      · rw [if_neg hb]
        simp only [List.mem_cons, hb, false_or]
    · rw [List.foldl_cons, hframe]
      simp only [discard, List.reverse_cons, List.append_assoc, List.singleton_append, List.length_cons]
      have hgarbage : s.numGarbage + 1 + as.length = s.numGarbage + (as.length + 1) := by omega
      have hclauses : s.numClauses - 1 - as.length = s.numClauses - (as.length + 1) := by omega
      rw [hgarbage, hclauses]

/-! ## Dropping watches and freeing clauses -/

theorem mem_allLiterals : l ∈ s.allLiterals ↔ s.known l := by
  rw [allLiterals, List.mem_flatMap, known]
  constructor
  · rintro ⟨v, hv, hl⟩
    obtain ⟨i, hi, rfl⟩ := List.getElem_of_mem hv
    simp only [List.length_drop, List.length_range] at hi
    simp only [List.getElem_drop, List.getElem_range, List.mem_cons, List.not_mem_nil, or_false] at hl
    omega
  · rintro ⟨hne, hlt⟩
    refine ⟨l.natAbs, List.mem_iff_getElem.mpr ⟨l.natAbs - 1, ?_, ?_⟩, ?_⟩
    · simp only [List.length_drop, List.length_range]
      omega
    · simp only [List.getElem_drop, List.getElem_range]
      omega
    · simp only [List.mem_cons, List.not_mem_nil, or_false]
      omega

theorem foldl_flush (p : CheckerWatch → Bool) (ls : List ℤ) (W : ℤ → List CheckerWatch) (l : ℤ) :
    ls.foldl (fun ws lit => Function.update ws lit ((ws lit).filter p)) W l =
      if l ∈ ls then (W l).filter p else W l := by
  induction ls generalizing W with
  | nil => simp
  | cons x ls ih =>
    rw [List.foldl_cons, ih]
    by_cases hl : l = x
    · rw [hl, Function.update_self, if_pos List.mem_cons_self, List.filter_filter]
      simp
    · rw [Function.update_of_ne hl]
      simp only [List.mem_cons, hl, false_or]

theorem foldl_free (as : List ℕ) (store : List (Option CheckerClause)) (b : ℕ) :
    (as.foldl (fun store a => store.set a none) store)[b]?.join = if b ∈ as then none else store[b]?.join := by
  induction as generalizing store with
  | nil => simp
  | cons a as ih =>
    rw [List.foldl_cons, ih, List.getElem?_set]
    by_cases hb : b = a
    · rw [if_pos hb.symm, if_pos (List.mem_cons.mpr (.inl hb))]
      split
      · rfl
      · split <;> rfl
    · rw [if_neg (Ne.symm hb)]
      simp only [List.mem_cons, hb, false_or]

/-! ## Collecting -/

theorem flatten_map_filter (p : ℕ → Bool) (t : List (List ℕ)) :
    (t.map fun chain => chain.filter p).flatten = t.flatten.filter p := List.filter_flatten.symm

theorem discardSatisfied_clauses : s.discardSatisfied.clauses =
    s.clauses.map fun chain => chain.filter fun a => !s.clauseSatisfied a := by
  obtain ⟨-, hframe⟩ := foldl_discard (s.clauses.flatten.filter s.clauseSatisfied)
    (s := { s with clauses := s.clauses.map fun chain => chain.filter fun a => !s.clauseSatisfied a })
  rw [discardSatisfied, hframe]

/-- The first loop moves the true clauses of the table to the garbage. -/
theorem discardSatisfied_spec (h : Tabled s) : Tabled s.discardSatisfied ∧
    Condemned (s.clauses.flatten.filter s.clauseSatisfied) s s.discardSatisfied ∧
    s.discardSatisfied = { s with
      store := s.discardSatisfied.store, clauses := s.discardSatisfied.clauses,
      garbage := (s.clauses.flatten.filter s.clauseSatisfied).reverse ++ s.garbage,
      numGarbage := s.discardSatisfied.numGarbage, numClauses := s.discardSatisfied.numClauses } := by
  obtain ⟨hat, hframe⟩ := foldl_discard (s.clauses.flatten.filter s.clauseSatisfied)
    (s := { s with clauses := s.clauses.map fun chain => chain.filter fun a => !s.clauseSatisfied a })
  have hcondemned : Condemned (s.clauses.flatten.filter s.clauseSatisfied) s s.discardSatisfied := hat
  have hgarbage : s.discardSatisfied.garbage =
      (s.clauses.flatten.filter s.clauseSatisfied).reverse ++ s.garbage := by
    rw [discardSatisfied, hframe]
  refine ⟨hcondemned.tabled h ?_ ?_ ?_ ?_ ?_, hcondemned, ?_⟩
  · rw [discardSatisfied_clauses, flatten_map_filter]
    exact (List.filter_append_perm s.clauseSatisfied s.clauses.flatten).symm
  · rw [hgarbage]
    exact (List.reverse_perm _).append_right _
  · rw [discardSatisfied_clauses, List.length_map]
  · rw [discardSatisfied, hframe]
  · rw [discardSatisfied, hframe]
  · rw [discardSatisfied, hframe]

/-- A clause with a true literal is settled. -/
theorem not_satisfied_of_unsettled (hs : Assigned s) (h : Unsettled s.trail (s.keyAt a)) :
    s.clauseSatisfied a = false := by
  rw [clauseSatisfied]
  cases hc : s.clauseAt a with
  | none => rfl
  | some c =>
    rw [List.any_eq_false]
    intro l hl hpos
    have hmem : l ∈ (s.keyAt a).2 := by
      rw [keyAt, hc]
      exact List.mem_toFinset.mpr (List.mem_of_mem_take hl)
    exact (h l hmem).1 (hs.pos.mp (of_decide_eq_true hpos))

/-- The clauses that stay are all that is not settled. -/
theorem Holds.collect {ks : Multiset Key} (h : Holds s ks) (hs : Assigned s) (htabled : Tabled s')
    (hclauses : s'.clauses = s.clauses.map fun chain => chain.filter fun a => !s.clauseSatisfied a)
    (htrail : s'.trail = s.trail) (hkeep : ∀ a c, s'.clauseAt a = some c → s.clauseAt a = some c) :
    Holds s' ks := by
  have hsame : ∀ a ∈ s'.clauses.flatten, s'.clauseAt a = s.clauseAt a := by
    intro a ha
    obtain ⟨c, hc⟩ := (htabled.allocated a).mpr (List.mem_append_left _ ha)
    rw [hc, hkeep a c hc]
  have hlen : s'.clauses.length = s.clauses.length := by rw [hclauses, List.length_map]
  refine ⟨?_, ?_⟩
  · have hplaced := h.placed.filter fun a => !s.clauseSatisfied a
    rw [← hclauses] at hplaced
    exact hplaced.congr fun a ha => by rw [hashAt_congr (hsame a ha), hlen]
  · have hflat : s'.clauses.flatten = s.clauses.flatten.filter fun a => !s.clauseSatisfied a := by
      rw [hclauses]
      exact flatten_map_filter _ _
    have hmap : (s'.clauses.flatten : Multiset ℕ).map s'.keyAt = (s'.clauses.flatten : Multiset ℕ).map s.keyAt :=
      Multiset.map_congr rfl fun b hb => keyAt_congr (hsame b (Multiset.mem_coe.mp hb))
    rw [htrail, hmap, hflat]
    calc ks.filter (Unsettled s.trail)
      _ = (ks.filter (Unsettled s.trail)).filter (Unsettled s.trail) := by
        rw [Multiset.filter_filter]
        simp only [and_self]
      _ ≤ ((s.clauses.flatten : Multiset ℕ).map s.keyAt).filter (Unsettled s.trail) :=
        Multiset.filter_le_filter _ h.keys
      _ = ((s.clauses.flatten : Multiset ℕ).filter fun a => Unsettled s.trail (s.keyAt a)).map s.keyAt :=
        Multiset.filter_map _ _ _
      _ ≤ ((s.clauses.flatten.filter fun a => !s.clauseSatisfied a : List ℕ) : Multiset ℕ).map s.keyAt := by
        rw [Multiset.filter_coe]
        refine Multiset.map_le_map (List.Sublist.subperm (List.monotone_filter_right _ fun a ha => ?_))
        rw [not_satisfied_of_unsettled hs (of_decide_eq_true ha)]
        rfl

/-- The watches of clauses that stay. -/
theorem Linked.collect (h : Linked s s.watchers) (hvars : s'.sizeVars = s.sizeVars)
    (hkeep : ∀ a c, s'.clauseAt a = some c → s.clauseAt a = some c)
    (hwatchers : ∀ l, s'.watchers l = (s.watchers l).filter fun w => s'.allocated w.clause) :
    Linked s' s'.watchers := by
  refine ⟨fun {a c} hc => (h.clause (hkeep a c hc)).mono hvars.ge, fun {l w} hw => ?_, fun l => ?_,
    fun {a c} hc hheed {l} hl => ?_⟩
  · rw [hwatchers] at hw
    obtain ⟨hw, hallocated⟩ := List.mem_filter.mp hw
    obtain ⟨c, hc, hrest⟩ := h.watch hw
    obtain ⟨d, hd⟩ := allocated_iff.mp hallocated
    have hsame := hkeep _ _ hd
    rw [hc] at hsame
    cases hsame
    exact ⟨c, hd, hrest⟩
  · rw [hwatchers]
    exact (h.unique l).sublist (List.filter_sublist.map _)
  · obtain ⟨w, hw, ha⟩ := h.watched (hkeep a c hc) hheed hl
    refine ⟨w, ?_, ha⟩
    rw [hwatchers]
    exact List.mem_filter.mpr ⟨hw, allocated_iff.mpr ⟨c, ha ▸ hc⟩⟩

theorem Tabled.free (h : Tabled s) : Tabled s.flushWatches.freeGarbage ∧
    ∀ b, s.flushWatches.freeGarbage.clauseAt b = if b ∈ s.garbage then none else s.clauseAt b := by
  have hat : ∀ b, s.flushWatches.freeGarbage.clauseAt b = if b ∈ s.garbage then none else s.clauseAt b :=
    fun b => foldl_free s.garbage s.store b
  obtain ⟨hnodup, -, hdisjoint⟩ := List.nodup_append'.mp h.nodup
  refine ⟨⟨?_, fun b => ?_, fun b c hc => ?_, h.count, h.load, ?_⟩, hat⟩
  · exact (List.append_nil _).symm ▸ hnodup
  · have hempty : s.flushWatches.freeGarbage.clauses.flatten ++ s.flushWatches.freeGarbage.garbage =
        s.clauses.flatten := List.append_nil _
    rw [hempty, hat]
    split
    · next hb =>
      refine ⟨by simp, fun hmem => absurd hb (hdisjoint hmem)⟩
    · next hb =>
      rw [h.allocated b, List.mem_append]
      exact ⟨fun hor => hor.resolve_right hb, .inl⟩
  · rw [hat] at hc
    split at hc
    · cases hc
    · exact h.live b c hc
  · have hwaiting : s.flushWatches.freeGarbage.numGarbage = s.numGarbage - s.garbage.length := rfl
    rw [hwaiting, h.waiting, Nat.sub_self]
    rfl

/-- A clause is live if it is not freed. -/
theorem Tabled.isLive_eq (h : Tabled s) (ha : s.allocated a = true) :
    s.isLive a = s.flushWatches.freeGarbage.allocated a := by
  obtain ⟨c, hc⟩ := allocated_iff.mp ha
  have hlive := h.live a c hc
  have hmem := (h.allocated a).mp ⟨c, hc⟩
  have hdisjoint := (List.nodup_append'.mp h.nodup).2.2
  rw [isLive, hc, Checker.allocated, h.free.2, hc]
  by_cases hg : a ∈ s.garbage
  · have hzero : c.size = 0 := by
      by_contra hne
      exact hdisjoint (hlive.mp hne) hg
    simp [hg, hzero]
  · have hne : c.size ≠ 0 := hlive.mpr ((List.mem_append.mp hmem).resolve_right hg)
    simp [hg, hne]

theorem Rooted.collect (h : Rooted s) (hvars : s'.sizeVars = s.sizeVars) (hvals : s'.vals = s.vals)
    (htrail : s'.trail = s.trail) (hnext : s'.nextToPropagate = s.nextToPropagate)
    (hkeep : ∀ a c, s'.clauseAt a = some c → s.clauseAt a = some c)
    (hwatchers : ∀ l, s'.watchers l = (s.watchers l).filter fun w => s'.allocated w.clause) : Rooted s' := by
  refine ⟨h.linked.collect hvars hkeep hwatchers, h.assigned.congr hvals htrail hvars.ge,
    fun l hl w hw c hc hheed => ?_, ?_⟩
  · rw [htrail, hnext] at hl
    rw [hwatchers] at hw
    rw [htrail]
    exact h.settled l hl w (List.mem_of_mem_filter hw) c (hkeep _ c hc) hheed
  · rw [hnext, htrail, h.next]

/-- After a collection some clauses are gone, and all others are as they were. -/
theorem run_collectGarbageClauses (h : Consistent s) : ∃ s', collectGarbageClauses.run s = (.ok (), s') ∧ Consistent s' ∧
    s' = { s with
      watchers := s'.watchers, numClauses := s'.numClauses, numGarbage := s'.numGarbage, clauses := s'.clauses,
      garbage := s'.garbage, store := s'.store } ∧
    (∀ a c, s'.clauseAt a = some c → s.clauseAt a = some c) ∧ ∀ ks, Holds s ks → Holds s' ks := by
  have hclauses := discardSatisfied_clauses (s := s)
  obtain ⟨htabled, hcondemned, hframe⟩ := discardSatisfied_spec h.toTabled
  generalize hs₁ : s.discardSatisfied = s₁ at htabled hframe hcondemned hclauses
  generalize s.clauses.flatten.filter s.clauseSatisfied = as at hcondemned hframe
  have hwatchers₁ : s₁.watchers = s.watchers := by rw [hframe]
  have hvars₁ : s₁.sizeVars = s.sizeVars := by rw [hframe]
  have hgarbage₁ : s₁.garbage = as.reverse ++ s.garbage := by rw [hframe]
  -- watches lead to allocated clauses
  have hsafe : ∀ l, ∀ w ∈ s.watchers l, s₁.allocated w.clause = true := by
    intro l w hw
    obtain ⟨c, hc, -⟩ := h.linked.watch hw
    obtain ⟨d, hd, -⟩ := hcondemned.forth hc
    exact allocated_iff.mpr ⟨d, hd⟩
  have hall : (s₁.allLiterals.all fun lit => (s₁.watchers lit).all fun w => s₁.allocated w.clause) = true :=
    List.all_eq_true.mpr fun lit _ => List.all_eq_true.mpr fun w hw => hsafe lit w (hwatchers₁ ▸ hw)
  have hfreeable : (decide s₁.garbage.Nodup && s₁.garbage.all s₁.allocated) = true := by
    rw [Bool.and_eq_true]
    refine ⟨decide_eq_true (List.nodup_append'.mp htabled.nodup).2.1, List.all_eq_true.mpr fun a ha => ?_⟩
    exact allocated_iff.mpr ((htabled.allocated a).mpr (List.mem_append_right _ ha))
  have hrun : collectGarbageClauses.run s = (.ok (), s₁.flushWatches.freeGarbage) := by
    rw [collectGarbageClauses, run_read_bind, run_bind, h.toTabled.table, run_require_true, andThen_ok,
      run_modify_bind, hs₁, run_read_bind, run_bind, hall, run_require_true, andThen_ok, run_modify_bind,
      run_bind, hfreeable, run_require_true, andThen_ok, run_modify]
  obtain ⟨htabled', hat'⟩ := htabled.free
  have hkeep : ∀ a c, s₁.flushWatches.freeGarbage.clauseAt a = some c → s.clauseAt a = some c := by
    intro a c hc
    rw [hat'] at hc
    split at hc
    · cases hc
    · next ha =>
      rw [hgarbage₁, List.mem_append, List.mem_reverse, not_or] at ha
      rwa [hcondemned a, if_neg ha.1] at hc
  have hwatchers : ∀ l, s₁.flushWatches.freeGarbage.watchers l =
      (s.watchers l).filter fun w => s₁.flushWatches.freeGarbage.allocated w.clause := by
    intro l
    have hflush : s₁.flushWatches.freeGarbage.watchers l = if l ∈ s₁.allLiterals then
        (s₁.watchers l).filter fun w => s₁.isLive w.clause else s₁.watchers l := foldl_flush _ _ _ _
    rw [hflush, hwatchers₁]
    by_cases hl : l ∈ s₁.allLiterals
    · rw [if_pos hl]
      exact List.filter_congr fun w hw => htabled.isLive_eq (hsafe l w hw)
    · rw [if_neg hl]
      cases hws : s.watchers l with
      | nil => rfl
      | cons w ws =>
        obtain ⟨c, hc, -, -, -, hwatch⟩ := h.linked.watch (hws ▸ List.mem_cons_self : w ∈ s.watchers l)
        have hknown := (h.linked.clause hc).known l (hwatch.mem (h.linked.clause hc))
        exact absurd (mem_allLiterals.mpr (hknown.mono hvars₁.ge)) hl
  have hvals : s₁.vals = s.vals := by rw [hframe]
  have htrail : s₁.trail = s.trail := by rw [hframe]
  have hnext : s₁.nextToPropagate = s.nextToPropagate := by rw [hframe]
  have hmarks : s₁.marks = s.marks := by rw [hframe]
  have hconsistent : s₁.inconsistent = s.inconsistent := by rw [hframe]
  have hrooted : Rooted s₁.flushWatches.freeGarbage :=
    h.toRooted.collect hvars₁ hvals htrail hnext hkeep hwatchers
  refine ⟨_, hrun, ⟨hrooted, htabled', hmarks.trans h.marks, hconsistent.trans h.consistent⟩, ?_, hkeep,
    fun ks hks => hks.collect h.assigned htabled' hclauses htrail hkeep⟩
  rw [hframe]
  rfl

end Zusat.Checker
