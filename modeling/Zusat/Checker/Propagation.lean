import Zusat.Checker.Watches

/-! # Propagation

Visiting the watches of a literal that has become false leaves every clause watched there true, or finds a
false clause; so when `propagate` is through, no clause forces another literal. Watches of literals that were
false before are not touched, which is why they are in order again after backtracking. -/

namespace Zusat.Checker
open Foundations Foundations.Prog
set_option autoImplicit false

variable {s s' s'' : Checker} {l p : ℤ} {a : ℕ} {G : List (List ℤ)}

/-! ## What is forced -/

/-- The clauses propagation heeds are among the clauses of `G`. -/
def Covers (G : List (List ℤ)) (s : Checker) : Prop :=
  ∀ a c, s.clauseAt a = some c → Heeded c → ∃ d ∈ G, SameLiterals c.literals d

/-- What is assigned has been propagated. -/
def Derived (G : List (List ℤ)) (s : Checker) : Prop := ∀ l ∈ s.trail, Propagates G noValues l

/-- The clause is true, if propagation heeds it. -/
def SettledAt (s : Checker) (a : ℕ) : Prop :=
  ∀ c, s.clauseAt a = some c → Heeded c → ∃ x ∈ c.literals, x ∈ s.trail

theorem settledAt_of_mem {c : CheckerClause} (hc : s.clauseAt a = some c) (hl : l ∈ c.literals)
    (htrue : l ∈ s.trail) : SettledAt s a := by
  intro d hd _
  rw [hc] at hd
  cases hd
  exact ⟨l, hl, htrue⟩

theorem Covers.same (h : Covers G s) (hstore : SameStore s s') : Covers G s' := by
  intro a d hd hheed
  obtain ⟨c, hc, hcd⟩ := hstore.back hd
  obtain ⟨e, he, hsame⟩ := h a c hc (hcd.heeded.mp hheed)
  exact ⟨e, he, fun x => hcd.literals.mem_iff.trans (hsame x)⟩

theorem SettledAt.same (h : SettledAt s a) (hstore : SameStore s s') (htrail : s.trail ⊆ s'.trail) :
    SettledAt s' a := by
  intro d hd hheed
  obtain ⟨c, hc, hcd⟩ := hstore.back hd
  obtain ⟨x, hx, htrue⟩ := h c hc (hcd.heeded.mp hheed)
  exact ⟨x, hcd.literals.mem_iff.mpr hx, htrail htrue⟩

/-- A clause whose other literals are all false forces the last one. -/
theorem Derived.forced (h : Derived G s) (hG : Covers G s) {c : CheckerClause} (hc : s.clauseAt a = some c)
    (hheed : Heeded c) (hl : l ∈ c.literals) (hfalse : ∀ x ∈ c.literals, x ≠ l → -x ∈ s.trail) :
    Propagates G noValues l := by
  obtain ⟨d, hd, hsame⟩ := hG a c hc hheed
  exact .unit hd ((hsame l).mp hl) fun x hx hne => h _ (hfalse x ((hsame x).mpr hx) hne)

/-- A clause whose literals are all false is a conflict. -/
theorem Derived.conflict (h : Derived G s) (hG : Covers G s) {c : CheckerClause} (hc : s.clauseAt a = some c)
    (hheed : Heeded c) (hfalse : ∀ x ∈ c.literals, -x ∈ s.trail) : Conflicts G noValues := by
  obtain ⟨d, hd, hsame⟩ := hG a c hc hheed
  exact ⟨d, hd, fun x hx => h _ (hfalse x ((hsame x).mpr hx))⟩

theorem Derived.assign (h : Derived G s) (hl : Propagates G noValues l) : Derived G (s.assign l) := by
  intro x hx
  rcases List.mem_append.mp hx with hx | hx
  · exact h x hx
  · rw [List.mem_singleton.mp hx]
    exact hl

/-! ## The watches of one literal -/

/-- What the loop over the watches of `p` changes. -/
structure Moved (p : ℤ) (s s' : Checker) : Prop where
  frame : s' = { s with vals := s'.vals, trail := s'.trail, watchers := s'.watchers, store := s'.store }
  trail : s.trail <+: s'.trail
  length : s'.store.length = s.store.length
  store : SameStore s s'
  watchers : ∀ l, l ≠ p → -l ∈ s.trail → s'.watchers l = s.watchers l

theorem Moved.trans (h : Moved p s s') (h' : Moved p s' s'') : Moved p s s'' := by
  refine ⟨?_, h.trail.trans h'.trail, h'.length.trans h.length, h.store.trans h'.store, fun l hl hneg => ?_⟩
  · rw [h'.frame, h.frame]
  · rw [h'.watchers l hl (h.trail.subset hneg), h.watchers l hl hneg]

theorem moved_setWatcher (ws : List CheckerWatch) : Moved p s (s.setWatcher p ws) :=
  ⟨rfl, List.prefix_refl _, rfl, .of_eq rfl, fun _ hl _ => Function.update_of_ne hl _ _⟩

theorem moved_assign : Moved p s (s.assign l) :=
  ⟨rfl, List.prefix_append _ _, rfl, .of_eq rfl, fun _ _ _ => rfl⟩

theorem moved_setClause {c d : CheckerClause} (hc : s.clauseAt a = some c) (hcd : SameClause c d) :
    Moved p s (s.setClause a (some d)) :=
  ⟨rfl, List.prefix_refl _, List.length_set, sameStore_setClause hc hcd, fun _ _ _ => rfl⟩

theorem moved_pushWatch {r : ℤ} (w : CheckerWatch) (hr : -r ∉ s.trail) : Moved p s (s.pushWatch r w) := by
  refine ⟨rfl, List.prefix_refl _, rfl, .of_eq rfl, fun l _ hneg => Function.update_of_ne ?_ _ _⟩
  rintro rfl
  exact hr hneg

/-- What holds before each round of the loop. -/
structure Visiting (G : List (List ℤ)) (p : ℤ) (kept ws : List CheckerWatch) (s : Checker) : Prop where
  linked : Linked s (Function.update s.watchers p (kept ++ ws))
  assigned : Assigned s
  falsified : -p ∈ s.trail
  covers : Covers G s
  derived : Derived G s
  settled : ∀ w ∈ kept, SettledAt s w.clause

/-- What holds after the loop. -/
structure Visited (G : List (List ℤ)) (p : ℤ) (s : Checker) (ok : Bool) (s' : Checker) : Prop where
  moved : Moved p s s'
  linked : Linked s' s'.watchers
  assigned : Assigned s'
  derived : Derived G s'
  settled : ok = true → ∀ w ∈ s'.watchers p, SettledAt s' w.clause
  conflict : ok = false → Conflicts G noValues

theorem Visited.after {ok : Bool} (h : Visited G p s' ok s'') (hmoved : Moved p s s') : Visited G p s ok s'' :=
  ⟨hmoved.trans h.moved, h.linked, h.assigned, h.derived, h.settled, h.conflict⟩

section Visit
variable {kept ws : List CheckerWatch} {w : CheckerWatch} {c : CheckerClause}

theorem Visiting.done (h : Visiting G p kept [] s) : Visited G p s true (s.setWatcher p kept) := by
  have hlinked := h.linked
  rw [List.append_nil] at hlinked
  refine ⟨moved_setWatcher kept, hlinked.congr rfl le_rfl, h.assigned.congr rfl rfl le_rfl,
    h.derived, fun _ w hw => ?_, by simp⟩
  have hw : w ∈ kept := by simpa [setWatcher] using hw
  exact (h.settled w hw).same (.of_eq rfl) (List.Subset.refl _)

theorem Visiting.conflict (h : Visiting G p kept ws s) (hfalse : Conflicts G noValues) :
    Visited G p s false (s.setWatcher p (kept ++ ws)) :=
  ⟨moved_setWatcher _, h.linked.congr rfl le_rfl, h.assigned.congr rfl rfl le_rfl, h.derived,
    by simp, fun _ => hfalse⟩

/-- The loop goes on with a watch of a true clause kept. -/
theorem Visiting.keep (h : Visiting G p kept (w :: ws) s) (hw : SettledAt s w.clause) :
    Visiting G p (kept ++ [w]) ws s := by
  refine ⟨?_, h.assigned, h.falsified, h.covers, h.derived, fun v hv => ?_⟩
  · rw [List.append_assoc, List.singleton_append]
    exact h.linked
  · rcases List.mem_append.mp hv with hv | hv
    · exact h.settled v hv
    · rw [List.mem_singleton.mp hv]
      exact hw

/-- The loop goes on after a literal has been forced. -/
theorem Visiting.assign (h : Visiting G p kept ws s) (hl : s.known l) (hzero : s.vals l = 0)
    (hforced : Propagates G noValues l) : Visiting G p kept ws (s.assign l) := by
  have hmoved : Moved p s (s.assign l) := moved_assign
  exact ⟨h.linked.congr rfl le_rfl, h.assigned.assign hl hzero, hmoved.trail.subset h.falsified,
    h.covers.same hmoved.store, h.derived.assign hforced,
    fun v hv => (h.settled v hv).same hmoved.store hmoved.trail.subset⟩

theorem Visiting.clause (h : Visiting G p kept (w :: ws) s) : ∃ c, s.clauseAt w.clause = some c ∧
    w.size = c.literals.length ∧ w.blit ∈ c.literals ∧ w.blit ≠ p ∧ Watching c p ∧ WellFormed s c := by
  have hmem : w ∈ Function.update s.watchers p (kept ++ w :: ws) p := by
    rw [Function.update_self]
    exact List.mem_append_right kept List.mem_cons_self
  obtain ⟨c, hc, hsize, hblit, hne, hwatch⟩ := h.linked.watch hmem
  exact ⟨c, hc, hsize, hblit, hne, hwatch, h.linked.clause hc⟩

/-- A clause of two literals forces the other one. -/
theorem Visiting.binary (h : Visiting G p kept (w :: ws) s) (hc : s.clauseAt w.clause = some c)
    (htwo : c.literals.length = 2) (hblit : w.blit ∈ c.literals) (hne : w.blit ≠ p) (hwatch : Watching c p) :
    ∀ x ∈ c.literals, x ≠ w.blit → -x ∈ s.trail := by
  obtain ⟨x, y, rest, hlits, -⟩ := (h.linked.clause hc).split
  have hrest : rest = [] := by
    rw [hlits] at htwo
    simpa using htwo
  rw [hlits, hrest] at hblit ⊢
  intro z hz hzne
  have hz : z = p := by
    rcases (watching_cons hlits).mp hwatch with rfl | rfl
    · simp only [List.mem_cons, List.not_mem_nil, or_false] at hz hblit
      omega
    · simp only [List.mem_cons, List.not_mem_nil, or_false] at hz hblit
      omega
  rw [hz]
  exact h.falsified

/-- The last literal of a clause that is not false is assigned, and the watch kept. -/
theorem Visiting.forced (h : Visiting G p kept (w :: ws) s) (hc : s.clauseAt w.clause = some c)
    (hheed : Heeded c) (hl : l ∈ c.literals) (hothers : ∀ x ∈ c.literals, x ≠ l → -x ∈ s.trail)
    (hzero : s.vals l = 0) : Visiting G p (kept ++ [w]) ws (s.assign l) := by
  have hnext := h.assign ((h.linked.clause hc).known _ hl) hzero
    (h.derived.forced h.covers hc hheed hl hothers)
  have hat : (s.assign l).clauseAt w.clause = some c := hc
  exact hnext.keep (settledAt_of_mem hat hl (List.mem_append_right _ List.mem_cons_self))

/-- A clause without another literal left is a conflict. -/
theorem Visiting.refuted (h : Visiting G p kept (w :: ws) s) (hc : s.clauseAt w.clause = some c)
    (hheed : Heeded c) (hothers : ∀ x ∈ c.literals, x ≠ l → -x ∈ s.trail) (hneg : s.vals l < 0) :
    Visited G p s false (s.setWatcher p (kept ++ w :: ws)) := by
  refine h.conflict (h.derived.conflict h.covers hc hheed fun x hx => ?_)
  by_cases hxl : x = l
  · rw [hxl]
    exact h.assigned.neg.mp hneg
  · exact hothers x hx hxl

/-- The watch of a garbage clause is dropped. -/
theorem Visiting.drop (h : Visiting G p kept (w :: ws) s) (hc : s.clauseAt w.clause = some c)
    (hnot : ¬Heeded c) : Visiting G p kept ws s :=
  ⟨h.linked.drop hc hnot, h.assigned, h.falsified, h.covers, h.derived, h.settled⟩

theorem Visiting.setBlit (h : Visiting G p kept (w :: ws) s) (hc : s.clauseAt w.clause = some c)
    (hl : l ∈ c.literals) (hne : l ≠ p) : Visiting G p kept ({ w with blit := l } :: ws) s :=
  ⟨h.linked.setBlit hc hl hne, h.assigned, h.falsified, h.covers, h.derived, h.settled⟩

section Large
variable {other : ℤ} {rest : List ℤ}

/-- Another literal is watched instead of the false one. -/
theorem Visiting.rewatch (h : Visiting G p kept (w :: ws) s) (hc : s.clauseAt w.clause = some c)
    (hlive : c.size ≠ 0) (hperm : c.literals.Perm (other :: p :: rest)) (hop : other ≠ p) (horest : other ∉ rest)
    (hprest : p ∉ rest) (hwatches : ∀ l, Watching c l ↔ other = l ∨ p = l) {k : ℕ} (hk : k < rest.length)
    (hge : 0 ≤ s.vals rest[k]) :
    Moved p s ((s.setClause w.clause (some { c with literals := other :: rest[k] :: rest.set k p })).pushWatch
        rest[k] ⟨p, c.size, w.clause⟩) ∧
      Visiting G p kept ws ((s.setClause w.clause
        (some { c with literals := other :: rest[k] :: rest.set k p })).pushWatch rest[k] ⟨p, c.size, w.clause⟩) := by
  have hrmem : rest[k] ∈ rest := List.getElem_mem hk
  have hrp : rest[k] ≠ p := fun heq => hprest (heq ▸ hrmem)
  have hro : rest[k] ≠ other := fun heq => horest (heq ▸ hrmem)
  have hrneg : -rest[k] ∉ s.trail := by
    rw [← h.assigned.neg]
    omega
  have hswap : (other :: rest[k] :: rest.set k p).Perm c.literals :=
    (List.Perm.cons other (swap_set hk p)).trans hperm.symm
  have hcd : SameClause c { c with literals := other :: rest[k] :: rest.set k p } := ⟨rfl, rfl, hswap⟩
  have hnewwatch : ∀ l, Watching { c with literals := other :: rest[k] :: rest.set k p } l ↔
      other = l ∨ rest[k] = l := fun l => watching_cons rfl
  have hlinked := h.linked.replace hc hlive ⟨hcd, hwatches, hnewwatch, hop, hrp, hro⟩
  have hmoved : Moved p s ((s.setClause w.clause
      (some { c with literals := other :: rest[k] :: rest.set k p })).pushWatch rest[k] ⟨p, c.size, w.clause⟩) :=
    (moved_setClause hc hcd).trans (moved_pushWatch _ hrneg)
  refine ⟨hmoved, hlinked.congr rfl le_rfl, h.assigned.congr rfl rfl le_rfl, h.falsified,
    h.covers.same hmoved.store, h.derived, fun v hv => ?_⟩
  exact (h.settled v hv).same hmoved.store (List.Subset.refl _)

/-- The false literal becomes the second one of its clause. -/
theorem Visiting.reorder (h : Visiting G p kept (w :: ws) s) (hc : s.clauseAt w.clause = some c)
    (hperm : c.literals.Perm (other :: p :: rest)) (hwatches : ∀ l, Watching c l ↔ other = l ∨ p = l) :
    Moved p s (s.setClause w.clause (some { c with literals := other :: p :: rest })) ∧
      Visiting G p kept (w :: ws) (s.setClause w.clause (some { c with literals := other :: p :: rest })) := by
  have hcd : SameClause c { c with literals := other :: p :: rest } := ⟨rfl, rfl, hperm.symm⟩
  have hmoved : Moved p s (s.setClause w.clause (some { c with literals := other :: p :: rest })) :=
    moved_setClause hc hcd
  refine ⟨hmoved, h.linked.reorder hc hcd fun l => (watching_cons rfl).trans (hwatches l).symm,
    h.assigned.congr rfl rfl le_rfl, h.falsified, h.covers.same hmoved.store, h.derived,
    fun v hv => ?_⟩
  exact (h.settled v hv).same hmoved.store (List.Subset.refl _)

/-- Where no replacement is found, only the other watch can be true. -/
theorem Visiting.others_false (h : Visiting G p kept ws s)
    (hfind : rest.findIdx? (fun lit => decide (0 ≤ s.vals lit)) = none) :
    ∀ x ∈ other :: p :: rest, x ≠ other → -x ∈ s.trail := by
  intro x hx hne
  rcases List.mem_cons.mp hx with rfl | hx
  · exact absurd rfl hne
  rcases List.mem_cons.mp hx with rfl | hx
  · exact h.falsified
  · have hlt := List.findIdx?_eq_none_iff.mp hfind x hx
    exact h.assigned.neg.mp (by simpa using hlt)

end Large

/-- The loop keeps everything in order, and ends early in a conflict only. -/
theorem visit_spec (h : Visiting G p kept ws s) : ∃ ok s', visit p ws kept s = some (ok, s') ∧
    Visited G p s ok s' := by
  induction ws generalizing kept s with
  | nil => exact ⟨true, _, rfl, h.done⟩
  | cons w ws ih =>
    obtain ⟨c, hc, hwsize, hblit, hbne, hwatch, hwf⟩ := h.clause
    rw [visit]
    by_cases hpos : 0 < s.vals w.blit
    · -- the blocking literal is true
      rw [if_pos hpos]
      exact ih (h.keep (settledAt_of_mem hc hblit (h.assigned.pos.mp hpos)))
    · rw [if_neg hpos]
      by_cases htwo : w.size = 2
      · have hlen : c.literals.length = 2 := hwsize.symm.trans htwo
        have hothers := h.binary hc hlen hblit hbne hwatch
        rw [if_pos htwo]
        by_cases hneg : s.vals w.blit < 0
        · -- both literals are false
          rw [if_pos hneg]
          exact ⟨false, _, rfl, h.refuted hc (.inr hlen) hothers hneg⟩
        · rw [if_neg hneg]
          obtain ⟨ok, s', hrun, hvisited⟩ := ih (h.forced hc (.inr hlen) hblit hothers (by omega))
          exact ⟨ok, s', hrun, hvisited.after moved_assign⟩
      · rw [if_neg htwo, hc]
        simp only
        by_cases hgarbage : c.size = 0
        · rw [if_pos hgarbage]
          have hnot : ¬Heeded c := by
            rintro (hs | hs)
            · exact hs hgarbage
            · exact htwo (hwsize.trans hs)
          exact ih (h.drop hc hnot)
        · rw [if_neg hgarbage]
          obtain ⟨other, rest, hxor, hdrop, hperm, hop, horest, hprest, hnodup, hwatches⟩ := xor_other hwf hwatch
          have homem : other ∈ c.literals := hperm.mem_iff.mpr List.mem_cons_self
          rw [hxor, hdrop]
          by_cases hopos : 0 < s.vals other
          · -- the other watch is true
            rw [if_pos hopos]
            have hat : s.clauseAt ({ w with blit := other } : CheckerWatch).clause = some c := hc
            have hsettled := settledAt_of_mem hat homem (h.assigned.pos.mp hopos)
            exact ih ((h.setBlit hc homem hop).keep hsettled)
          · rw [if_neg hopos]
            cases hfind : rest.findIdx? fun lit => decide (0 ≤ s.vals lit) with
            | some k =>
              obtain ⟨hk, hge, -⟩ := List.findIdx?_eq_some_iff_getElem.mp hfind
              have hget : rest.getD k 0 = rest[k] := List.getD_eq_getElem _ _ hk
              have hrp : rest[k] ≠ p := fun heq => hprest (heq ▸ List.getElem_mem hk)
              simp only [hget]
              rw [if_neg hrp]
              obtain ⟨hmoved, hnext⟩ := h.rewatch hc hgarbage hperm hop horest hprest hwatches hk
                (of_decide_eq_true hge)
              obtain ⟨ok, s', hrun, hvisited⟩ := ih hnext
              exact ⟨ok, s', hrun, hvisited.after hmoved⟩
            | none =>
              have hothers : ∀ x ∈ other :: p :: rest, x ≠ other → -x ∈ s.trail := h.others_false hfind
              obtain ⟨hmoved, hvisiting⟩ := h.reorder hc hperm hwatches
              have hat : (s.setClause w.clause (some { c with literals := other :: p :: rest })).clauseAt
                  w.clause = some { c with literals := other :: p :: rest } := by
                rw [clauseAt_setClause (clauseAt_lt hc), if_pos rfl]
              have hheed : Heeded { c with literals := other :: p :: rest } := .inl hgarbage
              simp only
              by_cases hzero : s.vals other = 0
              · -- the other watch is forced
                rw [if_pos (show (s.setClause w.clause _).vals other = 0 from hzero)]
                obtain ⟨ok, s', hrun, hvisited⟩ :=
                  ih (hvisiting.forced hat hheed List.mem_cons_self hothers hzero)
                exact ⟨ok, s', hrun, (hvisited.after moved_assign).after hmoved⟩
              · -- all literals are false
                have hneg : s.vals other < 0 := by omega
                rw [if_neg (show ¬(s.setClause w.clause _).vals other = 0 from hzero)]
                exact ⟨false, _, rfl, (hvisiting.refuted hat hheed hothers hneg).after hmoved⟩

end Visit

/-! ## The whole trail -/

/-- The clauses watched by a literal that has been propagated are true. -/
def Settled (s : Checker) : Prop :=
  ∀ l, -l ∈ s.trail.take s.nextToPropagate → ∀ w ∈ s.watchers l, SettledAt s w.clause

/-- What `propagate` changes. -/
structure Propagated (s s' : Checker) : Prop where
  frame : s' = { s with
    vals := s'.vals, trail := s'.trail, watchers := s'.watchers, store := s'.store,
    nextToPropagate := s'.nextToPropagate }
  trail : s.trail <+: s'.trail
  length : s'.store.length = s.store.length
  store : SameStore s s'
  watchers : ∀ l, -l ∈ s.trail.take s.nextToPropagate → s'.watchers l = s.watchers l

/-- What holds before each round of `propagate`. -/
structure Propagating (G : List (List ℤ)) (s : Checker) : Prop where
  linked : Linked s s.watchers
  assigned : Assigned s
  covers : Covers G s
  derived : Derived G s
  settled : Settled s
  next : s.nextToPropagate ≤ s.trail.length

/-- What holds when it ends. -/
structure Finished (G : List (List ℤ)) (s : Checker) (ok : Bool) (s' : Checker) : Prop where
  moved : Propagated s s'
  linked : Linked s' s'.watchers
  assigned : Assigned s'
  derived : Derived G s'
  settled : ok = true → Settled s' ∧ s'.nextToPropagate = s'.trail.length
  conflict : ok = false → Conflicts G noValues

theorem take_subset_take {xs ys : List ℤ} (h : xs <+: ys) {m n : ℕ} (hm : m ≤ xs.length) (hmn : m ≤ n) :
    xs.take m ⊆ ys.take n := by
  obtain ⟨zs, rfl⟩ := h
  rw [List.take_append_of_le_length hm |>.symm]
  exact List.take_subset_take_left _ hmn

/-- One literal is propagated. -/
theorem Propagating.visit (h : Propagating G s) {lit : ℤ} (hlit : s.trail[s.nextToPropagate]? = some lit)
    {ok : Bool} (hvisited : Visited G (-lit) { s with nextToPropagate := s.nextToPropagate + 1 } ok s') :
    Propagated s s' ∧ s'.nextToPropagate = s.nextToPropagate + 1 ∧ (ok = true → Propagating G s') := by
  obtain ⟨hlt, hget⟩ := List.getElem?_eq_some_iff.mp hlit
  obtain ⟨⟨hframe, htrail, hlen, hstore, hwatchers⟩, hlinked, hassigned, hderived, hsettled, -⟩ := hvisited
  have hnext : s'.nextToPropagate = s.nextToPropagate + 1 := by rw [hframe]
  have hstore' : SameStore s s' := hstore
  have hsubset : s.trail ⊆ s'.trail := htrail.subset
  -- a literal propagated before is not the one propagated now
  have hbefore : ∀ l, -l ∈ s.trail.take s.nextToPropagate → s'.watchers l = s.watchers l := by
    intro l hl
    refine hwatchers l ?_ (List.mem_of_mem_take hl)
    rintro rfl
    rw [Int.neg_neg] at hl
    obtain ⟨i, hi, hiv⟩ := List.getElem_of_mem hl
    rw [List.length_take] at hi
    rw [List.getElem_take] at hiv
    have heq := (List.Nodup.getElem_inj_iff h.assigned.nodup).mp (hiv.trans hget.symm)
    omega
  have hmoved : Propagated s s' := ⟨by rw [hnext]; exact hframe, htrail, hlen, hstore', hbefore⟩
  refine ⟨hmoved, hnext, fun hok => ⟨hlinked, hassigned, h.covers.same hstore', hderived, ?_, ?_⟩⟩
  · intro l hl w hw
    have htake : s'.trail.take (s.nextToPropagate + 1) = s.trail.take s.nextToPropagate ++ [lit] := by
      obtain ⟨ext, hext⟩ := htrail
      rw [← hext, List.take_append_of_le_length hlt, List.take_succ_eq_append_getElem hlt, hget]
    rw [hnext, htake] at hl
    rcases List.mem_append.mp hl with hl | hl
    · rw [hbefore l hl] at hw
      exact (h.settled l hl w hw).same hstore' hsubset
    · have hl : l = -lit := by
        have := List.mem_singleton.mp hl
        omega
      rw [hl] at hw
      exact hsettled hok w hw
  · have hle := htrail.length_le
    rw [hnext]
    simp only at hle
    omega

theorem Propagated.trans (h : Propagated s s') (h' : Propagated s' s'') (hle : s.nextToPropagate ≤ s.trail.length)
    (hnext : s.nextToPropagate ≤ s'.nextToPropagate) : Propagated s s'' := by
  refine ⟨?_, h.trail.trans h'.trail, h'.length.trans h.length, h.store.trans h'.store, fun l hl => ?_⟩
  · rw [h'.frame, h.frame]
  · rw [h'.watchers l (take_subset_take h.trail hle hnext hl), h.watchers l hl]

theorem propagateLoop_spec {fuel : ℕ} (h : Propagating G s) (hfuel : s.sizeVars + 1 ≤ fuel + s.nextToPropagate) :
    ∃ ok s', propagateLoop fuel s = some (ok, s') ∧ Finished G s ok s' := by
  induction fuel generalizing s with
  | zero =>
    have hlen := h.assigned.length_le
    have hnext := h.next
    omega
  | succ fuel ih =>
    rw [propagateLoop]
    cases hlit : s.trail[s.nextToPropagate]? with
    | none =>
      have hge := List.getElem?_eq_none_iff.mp hlit
      have hmoved : Propagated s s := ⟨rfl, List.prefix_refl _, rfl, .of_eq rfl, fun _ _ => rfl⟩
      exact ⟨true, s, rfl, hmoved, h.linked, h.assigned, h.derived,
        fun _ => ⟨h.settled, Nat.le_antisymm h.next hge⟩, by simp⟩
    | some lit =>
      have hmem : lit ∈ s.trail := List.mem_of_getElem? hlit
      have hstart : Visiting G (-lit) [] (s.watchers (-lit))
          { s with nextToPropagate := s.nextToPropagate + 1 } := by
        refine ⟨?_, h.assigned.congr rfl rfl le_rfl, by rwa [Int.neg_neg], h.covers,
          h.derived, by simp⟩
        rw [List.nil_append, Function.update_eq_self]
        exact h.linked.congr rfl le_rfl
      obtain ⟨ok, s₁, hrun, hvisited⟩ := visit_spec hstart
      obtain ⟨hmoved, hnext, hgoes⟩ := h.visit hlit hvisited
      simp only
      rw [hrun]
      cases ok with
      | false =>
        exact ⟨false, s₁, rfl, hmoved, hvisited.linked, hvisited.assigned, hvisited.derived, by simp,
          hvisited.conflict⟩
      | true =>
        have hvars : s₁.sizeVars = s.sizeVars := by rw [hmoved.frame]
        obtain ⟨ok, s', hrest, hfinished⟩ := ih (hgoes rfl) (by omega)
        exact ⟨ok, s', hrest, hmoved.trans hfinished.moved h.next (by omega), hfinished.linked,
          hfinished.assigned, hfinished.derived, hfinished.settled, hfinished.conflict⟩

theorem propagate_spec (h : Propagating G s) :
    ∃ ok s', propagate s = some (ok, s') ∧ Finished G s ok s' := propagateLoop_spec h (by omega)

/-! ## What propagation leaves -/

/-- When everything is propagated no heeded clause forces a literal, and none is false. -/
theorem settled_closed (hlinked : Linked s s.watchers) (hassigned : Assigned s) (hsettled : Settled s)
    (hnext : s.nextToPropagate = s.trail.length) {c : CheckerClause} (hc : s.clauseAt a = some c)
    (hheed : Heeded c) : (∀ l ∈ c.literals, (∀ x ∈ c.literals, x ≠ l → -x ∈ s.trail) → l ∈ s.trail) ∧
      ∃ x ∈ c.literals, -x ∉ s.trail := by
  -- a clause with a false watch is true
  have htrue : ∀ x, Watching c x → -x ∈ s.trail → ∃ y ∈ c.literals, y ∈ s.trail := by
    intro x hx hneg
    obtain ⟨w, hw, hwa⟩ := hlinked.watched hc hheed hx
    have hsettledAt := hsettled x (by rwa [hnext, List.take_length]) w hw
    rw [hwa] at hsettledAt
    exact hsettledAt c hc hheed
  obtain ⟨x, y, rest, hlits, hne, -⟩ := (hlinked.clause hc).split
  have hxmem : x ∈ c.literals := by rw [hlits]; exact List.mem_cons_self
  have hymem : y ∈ c.literals := by rw [hlits]; exact List.mem_cons_of_mem x List.mem_cons_self
  refine ⟨fun l hl hfalse => ?_, ?_⟩
  · have hwatch : ∃ z ∈ c.literals, z ∈ s.trail := by
      by_cases hxl : x = l
      · exact htrue y ((watching_cons hlits).mpr (.inr rfl)) (hfalse y hymem fun h => hne (hxl.trans h.symm))
      · exact htrue x ((watching_cons hlits).mpr (.inl rfl)) (hfalse x hxmem hxl)
    obtain ⟨z, hz, hztrue⟩ := hwatch
    by_cases hzl : z = l
    · rwa [← hzl]
    · exact absurd (hfalse z hz hzl) (hassigned.consistent z hztrue)
  · by_cases hx : -x ∈ s.trail
    · obtain ⟨z, hz, hztrue⟩ := htrue x ((watching_cons hlits).mpr (.inl rfl)) hx
      exact ⟨z, hz, hassigned.consistent z hztrue⟩
    · exact ⟨x, hxmem, hx⟩

end Zusat.Checker
