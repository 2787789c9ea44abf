import Zusat.Checker.Garbage

/-! # The calls of the checker

No call reads freed memory. An added clause is satisfied by whatever fits all clauses the checker stores and the
clause itself, a derived clause is accepted exactly when it passes one of the two checks, and a deletion takes
away what it finds. -/

namespace Zusat.Checker
open Foundations Foundations.Prog
open LratChecker (setMarks_apply setMarks_true clauseText negated setMarks)
set_option autoImplicit false

variable {s s' : Checker} {l : ℤ} {a : ℕ} {c : List ℤ} {id : ℤ} {α : Assignment}

/-! ## Assignments that fit -/

/-- The assignment satisfies every clause that propagation heeds and every literal that is assigned. -/
structure Fits (α : Assignment) (s : Checker) : Prop where
  clause : ∀ {a c}, s.clauseAt a = some c → Heeded c → satisfies α c.literals = true
  trail : ∀ l ∈ s.trail, holds α l = true

theorem satisfies_same {c d : List ℤ} (h : ∀ x, x ∈ c → x ∈ d) (hc : satisfies α c = true) :
    satisfies α d = true := by
  obtain ⟨x, hx, htrue⟩ := satisfies_iff.mp hc
  exact satisfies_iff.mpr ⟨x, h x hx, htrue⟩

theorem Fits.same (h : Fits α s) (hstore : SameStore s s') (htrail : s'.trail = s.trail) : Fits α s' := by
  refine ⟨fun {a d} hd hheed => ?_, fun l hl => h.trail l (htrail ▸ hl)⟩
  obtain ⟨c, hc, hcd⟩ := hstore.back hd
  exact satisfies_same (fun x hx => hcd.literals.mem_iff.mpr hx) (h.clause hc (hcd.heeded.mp hheed))

theorem Fits.of_fewer (h : Fits α s) (hkeep : ∀ a c, s'.clauseAt a = some c → s.clauseAt a = some c)
    (htrail : s'.trail = s.trail) : Fits α s' :=
  ⟨fun {a c} hc hheed => h.clause (hkeep a c hc) hheed, fun l hl => h.trail l (htrail ▸ hl)⟩

theorem Fits.models_formula (h : Fits α s) : models α s.formula = true := by
  refine models_iff.mpr fun cl hcl => ?_
  rcases mem_formula.mp hcl with ⟨a, c, hc, hheed, rfl⟩ | ⟨l, hl, rfl⟩
  · exact h.clause hc hheed
  · exact satisfies_iff.mpr ⟨l, List.mem_cons_self, h.trail l hl⟩

theorem Rooted.formula_ne_zero (h : Rooted s) : ∀ cl ∈ s.formula, (0 : ℤ) ∉ cl := by
  intro cl hcl hzero
  rcases mem_formula.mp hcl with ⟨a, c, hc, -, rfl⟩ | ⟨l, hl, rfl⟩
  · exact ((h.linked.clause hc).known 0 hzero).1 rfl
  · rw [List.mem_singleton] at hzero
    exact (h.assigned.known l hl).1 hzero.symm

/-- A literal with a true negation is false. -/
theorem Fits.false_of_neg (h : Fits α s) (hs : Assigned s) (hneg : -l ∈ s.trail) : holds α l = false := by
  have hne : -l ≠ 0 := (hs.known _ hneg).1
  have htrue := h.trail _ hneg
  rw [holds_neg (by omega)] at htrue
  simpa using htrue

/-! ## Adding a clause -/

/-- A clause between `tautological` and `add_clause`. -/
structure Pending (s : Checker) : Prop where
  nodup : s.simplified.Nodup
  known : ∀ l ∈ s.simplified, s.known l
  clash : ∀ l ∈ s.simplified, -l ∉ s.simplified
  notTrue : ∀ l ∈ s.simplified, l ∉ s.trail

/-- What a call may leave. -/
def Settles (s : Checker) : Prop := s.inconsistent = true ∨ Consistent s

/-- The assignment fits, and the checker has not given up. -/
structure Agrees (α : Assignment) (s : Checker) : Prop extends Fits α s where
  consistent : s.inconsistent = false

/-- The key of a clause with its identifier. -/
def keyOf (id : ℤ) (c : List ℤ) : Key := (LratChecker.computeHash id, c.toFinset)

/-- The table holds a clause for each of the keys, or the checker has given up. -/
def Recalls (s : Checker) (ks : Multiset Key) : Prop := s.inconsistent = true ∨ Holds s ks

theorem Holds.settled {ks : Multiset Key} {k : Key} (h : Holds s ks) (hk : ¬Unsettled s.trail k) :
    Holds s (k ::ₘ ks) := by
  refine ⟨h.placed, ?_⟩
  rw [Multiset.filter_cons_of_neg _ hk]
  exact h.keys

theorem Pending.unsettled (h : Pending s) : Unsettled s.trail s.pendingKey := by
  intro l hl
  have hmem : l ∈ s.simplified := List.mem_toFinset.mp hl
  exact ⟨h.notTrue l hmem, fun hneg => h.clash l hmem (List.mem_toFinset.mp hneg)⟩

theorem Pending.congr (h : Pending s) (hsimplified : s'.simplified = s.simplified)
    (hvars : s'.sizeVars = s.sizeVars) (htrail : s'.trail = s.trail) : Pending s' := by
  refine ⟨?_, ?_, ?_, ?_⟩
  · rw [hsimplified]
    exact h.nodup
  · rw [hsimplified]
    exact fun l hl => (h.known l hl).mono hvars.ge
  · rw [hsimplified]
    exact h.clash
  · rw [hsimplified, htrail]
    exact h.notTrue

theorem mem_notFalse (hs : Assigned s) : l ∈ notFalse s.vals c ↔ l ∈ c ∧ -l ∉ s.trail := by
  rw [notFalse, List.mem_filter, ← hs.neg]
  simp

/-- A new unit is propagated; whatever fits the clauses and satisfies the unit fits what comes out, and nothing
does when there is a conflict. The table stays as it is. -/
theorem run_unit (h : Consistent s) {u : ℤ} (hu : s.known u) (hzero : s.vals u = 0) :
    ∃ ok s', propagate (s.assign u) = some (ok, s') ∧ (ok = true → Consistent s') ∧
      (∀ α, Fits α s → holds α u = true → ok = true ∧ Fits α s') ∧
      ∀ ks, Holds s ks → Holds s' ks ∧ u ∈ s'.trail := by
  have hassigned := h.assigned.assign hu hzero
  have hstart : Propagating (s.formula ++ units [u]) (s.assign u) := by
    refine ⟨h.linked.congr rfl le_rfl, hassigned, (covers_formula _).same (.of_eq rfl), fun x hx => ?_,
      fun x hx w hw => ?_, ?_⟩
    · rcases List.mem_append.mp hx with hx | hx
      · exact derived_formula _ x hx
      · exact .of_unit (List.mem_append_right _ (mem_units.mpr ⟨x, hx, rfl⟩))
    · have htake : (s.assign u).trail.take (s.assign u).nextToPropagate = s.trail := by
        have hnext : (s.assign u).nextToPropagate = s.trail.length := h.next
        rw [hnext]
        exact List.take_left
      rw [htake] at hx
      refine SettledAt.same (h.settled x (by rwa [h.toRooted.take]) w hw) (.of_eq rfl) ?_
      exact List.subset_append_left _ _
    · have hnext : (s.assign u).nextToPropagate = s.trail.length := h.next
      rw [hnext]
      simp [Checker.assign]
  obtain ⟨ok, s', hrun, hfinished⟩ := propagate_spec hstart
  have hframe := hfinished.moved.frame
  have hstore : SameStore s s' := SameStore.trans (.of_eq rfl) hfinished.moved.store
  refine ⟨ok, s', hrun, fun hok => ?_, fun α hfit htrue => ?_, fun ks hks => ?_⟩
  · obtain ⟨hsettled, hnext⟩ := hfinished.settled hok
    refine ⟨⟨hfinished.linked, hfinished.assigned, hsettled, hnext⟩, h.toTabled.same hstore ?_ ?_ ?_ ?_, ?_, ?_⟩
    · rw [hframe]
      rfl
    · rw [hframe]
      rfl
    · rw [hframe]
      rfl
    · rw [hframe]
      rfl
    · rw [hframe]
      exact h.marks
    · rw [hframe]
      exact h.consistent
  · have hmodels : models α (s.formula ++ units [u]) = true := by
      refine models_append_iff.mpr ⟨hfit.models_formula, models_iff.mpr fun cl hcl => ?_⟩
      obtain ⟨x, hx, rfl⟩ := mem_units.mp hcl
      rw [List.mem_singleton.mp hx]
      exact satisfies_iff.mpr ⟨u, List.mem_cons_self, htrue⟩
    have hnozero : ∀ cl ∈ s.formula ++ units [u], (0 : ℤ) ∉ cl := by
      intro cl hcl hmem
      rcases List.mem_append.mp hcl with hcl | hcl
      · exact h.toRooted.formula_ne_zero cl hcl hmem
      · obtain ⟨x, hx, rfl⟩ := mem_units.mp hcl
        rw [List.mem_singleton.mp hx, List.mem_singleton] at hmem
        exact hu.1 hmem.symm
    have hextends : PartialAssignment.Extends noValues α := fun v b hv => by cases hv
    have hok : ok = true := by
      cases ok with
      | true => rfl
      | false => exact absurd (hfinished.conflict rfl) (not_conflicts hmodels hextends hnozero)
    refine ⟨hok, fun {b d} hd hheed => ?_,
      fun x hx => (hfinished.derived x hx).holds hmodels hextends hnozero⟩
    obtain ⟨e, he, hed⟩ := hfinished.moved.store.back hd
    exact satisfies_same (fun x hx => hed.literals.mem_iff.mpr hx) (hfit.clause he (hed.heeded.mp hheed))
  · have htrail : s.trail ++ [u] ⊆ s'.trail := hfinished.moved.trail.subset
    have hclauses : s'.clauses = s.clauses := by
      rw [hframe]
      rfl
    exact ⟨hks.same hstore hclauses fun x hx => htrail (List.mem_append_left _ hx),
      htrail (List.mem_append_right _ List.mem_cons_self)⟩

theorem run_lift {β : Type} {f : Checker → Option (β × Checker)} {b : β} (h : f s = some (b, s')) :
    (lift f).run s = (.ok b, s') := by
  simp only [lift, h]

/-- `add_clause` without the collection of garbage. -/
def storeClause : CheckerM Unit := do
  let s ← read
  match scanUnit s.vals s.simplified .falsified with
  | .falsified => modify fun s => { s with inconsistent := true }
  | .unit lit =>
    modify (assign lit)
    let ok ← lift propagate
    doIf (!ok) (modify fun s => { s with inconsistent := true })
  | .several => insert

theorem run_storeClause (h : Consistent s) (hid : 0 < s.lastId) (hpending : Pending s) :
    ∃ s', storeClause.run s = (.ok (), s') ∧ Settles s' ∧
      (∀ α, Fits α s → satisfies α s.simplified = true → Agrees α s') ∧
      ∀ ks, Holds s ks → Recalls s' (s.pendingKey ::ₘ ks) := by
  have hassigned := h.assigned
  rw [storeClause, run_read_bind, scanUnit_eq]
  -- what is satisfied is satisfied by a literal that is not false
  have hsurvivor : ∀ α, Fits α s → satisfies α s.simplified = true →
      ∃ x ∈ notFalse s.vals s.simplified, holds α x = true := by
    intro α hfit hsat
    obtain ⟨x, hx, htrue⟩ := satisfies_iff.mp hsat
    refine ⟨x, (mem_notFalse hassigned).mpr ⟨hx, fun hneg => ?_⟩, htrue⟩
    rw [hfit.false_of_neg hassigned hneg] at htrue
    cases htrue
  have hzero : ∀ x ∈ notFalse s.vals s.simplified, s.vals x = 0 := by
    intro x hx
    obtain ⟨hmem, hneg⟩ := (mem_notFalse hassigned).mp hx
    exact hassigned.zero.mpr ⟨hpending.notTrue x hmem, hneg⟩
  cases hopen : notFalse s.vals s.simplified with
  | nil =>
    refine ⟨{ s with inconsistent := true }, rfl, .inl rfl, fun α hfit hsat => ?_, fun ks hks => .inl rfl⟩
    obtain ⟨x, hx, -⟩ := hsurvivor α hfit hsat
    rw [hopen] at hx
    cases hx
  | cons u us =>
    have humem : u ∈ notFalse s.vals s.simplified := hopen ▸ List.mem_cons_self
    cases us with
    | nil =>
      have hu := hpending.known u ((mem_notFalse hassigned).mp humem).1
      obtain ⟨ok, s', hrun, hcons, hfits, hholds⟩ := run_unit h hu (hzero u humem)
      have hlift : (lift propagate).run (s.assign u) = (.ok ok, s') := run_lift hrun
      have hunit : ∀ α, Fits α s → satisfies α s.simplified = true → holds α u = true := by
        intro α hfit hsat
        obtain ⟨x, hx, htrue⟩ := hsurvivor α hfit hsat
        rw [hopen] at hx
        rwa [List.mem_singleton.mp hx] at htrue
      simp only
      cases ok with
      | true =>
        refine ⟨s', ?_, .inr (hcons rfl), fun α hfit hsat => ?_, fun ks hks => .inr ?_⟩
        · rw [run_modify_bind, run_bind, hlift, andThen_ok]
          rfl
        · exact ⟨(hfits α hfit (hunit α hfit hsat)).2, (hcons rfl).consistent⟩
        · obtain ⟨hsame, htrue⟩ := hholds ks hks
          have hmem : u ∈ s.simplified := ((mem_notFalse hassigned).mp humem).1
          exact hsame.settled fun hopen => (hopen u (List.mem_toFinset.mpr hmem)).1 htrue
      | false =>
        refine ⟨{ s' with inconsistent := true }, ?_, .inl rfl, fun α hfit hsat => ?_, fun ks hks => .inl rfl⟩
        · rw [run_modify_bind, run_bind, hlift, andThen_ok]
          rfl
        · exact absurd (hfits α hfit (hunit α hfit hsat)).1 Bool.false_ne_true
    | cons v vs =>
      have hsub : (notFalse s.vals s.simplified).Sublist
          (s.simplified.filter fun l => decide (s.vals l = 0)) := by
        have hall : notFalse s.vals s.simplified =
            (s.simplified.filter fun l => decide (s.vals l = 0)) := by
          refine List.filter_congr fun x hx => ?_
          have hle : ¬0 < s.vals x := fun hpos => hpending.notTrue x hx (hassigned.pos.mp hpos)
          exact decide_eq_decide.mpr (by omega)
        rw [hall]
      have htwo : 2 ≤ (s.simplified.filter fun l => decide (s.vals l = 0)).length := by
        have hlen := hsub.length_le
        rw [hopen] at hlen
        simp only [List.length_cons] at hlen
        omega
      obtain ⟨s', lits, hrun, hcons, hperm, htrail, hclauses, hholds⟩ :=
        run_insert h hid ⟨hpending.nodup, hpending.known, htwo⟩
      refine ⟨s', hrun, .inr hcons, fun α hfit hsat => ⟨⟨fun {b d} hd hheed => ?_, ?_⟩, hcons.consistent⟩,
        fun ks hks => .inr (hholds ks hks)⟩
      · rcases hclauses b d hd with hold | hnew
        · exact hfit.clause hold hheed
        · rw [hnew]
          exact satisfies_same (fun x hx => hperm.mem_iff.mpr hx) hsat
      · exact fun x hx => hfit.trail x (htrail ▸ hx)

theorem run_addClause (h : Consistent s) (hid : 0 < s.lastId) (hpending : Pending s) :
    ∃ s', addClause.run s = (.ok (), s') ∧ Settles s' ∧
      (∀ α, Fits α s → satisfies α s.simplified = true → Agrees α s') ∧
      ∀ ks, Holds s ks → Recalls s' (s.pendingKey ::ₘ ks) := by
  have hbind : addClause.run s = andThen
      ((doIf (max s.clauses.length s.sizeVars < 2 * s.numGarbage) collectGarbageClauses).run s)
      fun _ => storeClause := rfl
  rw [hbind]
  by_cases hfull : max s.clauses.length s.sizeVars < 2 * s.numGarbage
  · obtain ⟨s₁, hcollect, hcons, hframe, hkeep, hcollected⟩ := run_collectGarbageClauses h
    have hsimplified : s₁.simplified = s.simplified := by rw [hframe]
    have hvars : s₁.sizeVars = s.sizeVars := by rw [hframe]
    have htrail : s₁.trail = s.trail := by rw [hframe]
    have hlast : s₁.lastId = s.lastId := by rw [hframe]
    have hkey : s₁.pendingKey = s.pendingKey := by rw [pendingKey, pendingKey, hlast, hsimplified]
    obtain ⟨s', hrun, hsettles, hfits, hholds⟩ := run_storeClause hcons (by rwa [hlast])
      (hpending.congr hsimplified hvars htrail)
    rw [decide_eq_true hfull, run_doIf_true, hcollect, andThen_ok]
    refine ⟨s', hrun, hsettles, fun α hfit hsat => hfits α (hfit.of_fewer hkeep htrail) ?_, fun ks hks => ?_⟩
    · rwa [hsimplified]
    · rw [← hkey]
      exact hholds ks (hcollected ks hks)
  · rw [decide_eq_false hfull, run_doIf_false, andThen_ok]
    exact run_storeClause h hid hpending

/-! ## Between the calls -/

/-- What holds between calls. -/
structure Idle (s : Checker) : Prop extends Consistent s where
  simplified : s.simplified = []
  unsimplified : s.unsimplified = []

/-- The checker has given up, or everything is in order. -/
def Resting (s : Checker) : Prop := s.inconsistent = true ∨ Idle s

theorem Consistent.congr (h : Consistent s) (hvars : s.sizeVars ≤ s'.sizeVars) (hvals : s'.vals = s.vals)
    (hwatchers : s'.watchers = s.watchers) (htrail : s'.trail = s.trail)
    (hnext : s'.nextToPropagate = s.nextToPropagate) (hstore : s'.store = s.store)
    (hclauses : s'.clauses = s.clauses) (hgarbage : s'.garbage = s.garbage)
    (hnum : s'.numClauses = s.numClauses) (hwaiting : s'.numGarbage = s.numGarbage)
    (hmarks : s'.marks = s.marks) (hconsistent : s'.inconsistent = s.inconsistent) : Consistent s' :=
  ⟨h.toRooted.congr hvars hvals hwatchers htrail hnext hstore,
    h.toTabled.same (.of_eq hstore) hclauses hgarbage hnum hwaiting, hmarks.trans h.marks,
    hconsistent.trans h.consistent⟩

theorem Settles.clear (h : Settles s) : Resting s.clear := by
  cases h with
  | inl h => exact .inl h
  | inr h => exact .inr ⟨h.congr le_rfl rfl rfl rfl rfl rfl rfl rfl rfl rfl rfl rfl, rfl, rfl⟩

theorem Agrees.clear (h : Agrees α s) : Agrees α s.clear := ⟨⟨h.clause, h.trail⟩, h.consistent⟩

theorem Recalls.clear {ks : Multiset Key} (h : Recalls s ks) : Recalls s.clear ks :=
  h.imp_right fun hks => ⟨hks.placed, hks.keys⟩

/-- A clause has been imported: the state is as before, but for the clause and room for its variables. -/
structure Imported (id : ℤ) (c : List ℤ) (s s' : Checker) : Prop where
  frame : s' = { s with
    sizeVars := s'.sizeVars, simplified := c, unsimplified := c, lastId := id }
  intact : Consistent s'
  known : ∀ l ∈ c, s'.known l

theorem run_import (h : Idle s) (hc : (0 : ℤ) ∉ c) (id : ℤ) : ∃ s', Imported id c s s' ∧
    ∀ {β : Type} (k : CheckerM β), (importClause c >>= fun _ =>
      modify (fun s => { s with lastId := id }) >>= fun _ => k).run s = k.run s' := by
  obtain ⟨n, hle, hlt, hrun⟩ := run_importClause (s := s) hc
  rw [h.simplified, h.unsimplified, List.nil_append] at hrun
  refine ⟨{ s with sizeVars := n, simplified := c, unsimplified := c, lastId := id }, ⟨rfl, ?_, fun l hl => ?_⟩,
    fun k => ?_⟩
  · exact h.toConsistent.congr hle rfl rfl rfl rfl rfl rfl rfl rfl rfl rfl rfl
  · exact ⟨fun hzero => hc (hzero ▸ hl), hlt l hl⟩
  · rw [run_bind, hrun, andThen_ok, run_modify_bind]

/-- The imported clause is either dropped, being true, or pending. -/
theorem Imported.tautological (h : Imported id c s s') (hc : (0 : ℤ) ∉ c) :
    (Checker.tautological.run s' = (.ok true, s') ∧ ((∃ x ∈ c, -x ∈ c) ∨ ∃ x ∈ c, x ∈ s.trail)) ∨
    ∃ out, Checker.tautological.run s' = (.ok false, { s' with simplified := out }) ∧ (∀ x, x ∈ out ↔ x ∈ c) ∧
      Consistent { s' with simplified := out } ∧ Pending { s' with simplified := out } := by
  have hsimplified : s'.simplified = c := by rw [h.frame]
  have htrail : s'.trail = s.trail := by rw [h.frame]
  rcases run_tautological (s := s') (by rwa [hsimplified]) with ⟨hrun, htrue⟩ | ⟨out, hrun, hclean⟩
  · rw [hsimplified] at htrue
    refine .inl ⟨hrun, htrue.imp_right ?_⟩
    rintro ⟨x, hx, hpos⟩
    exact ⟨x, hx, htrail ▸ h.intact.assigned.pos.mp hpos⟩
  · rw [hsimplified] at hclean
    refine .inr ⟨out, hrun, hclean.mem, h.intact.congr le_rfl rfl rfl rfl rfl rfl rfl rfl rfl rfl rfl rfl,
      hclean.nodup, fun l hl => h.known l ((hclean.mem l).mp hl), hclean.clash, fun l hl htrue => ?_⟩
    exact hclean.notTrue l hl (h.intact.assigned.pos.mpr htrue)

theorem Imported.fits (h : Imported id c s s') (hfit : Fits α s) : Fits α s' := by
  have hstore : s'.store = s.store := by rw [h.frame]
  exact hfit.same (.of_eq hstore) (by rw [h.frame])

theorem Imported.holds {ks : Multiset Key} (h : Imported id c s s') (hks : Holds s ks) : Holds s' ks := by
  have hstore : s'.store = s.store := by rw [h.frame]
  have htrail : s'.trail = s.trail := by rw [h.frame]
  exact hks.same (.of_eq hstore) (by rw [h.frame]) (by rw [htrail]; exact fun x hx => hx)

/-- A clause that is dropped is settled. -/
theorem Imported.settled (h : Imported id c s s') (htrue : (∃ x ∈ c, -x ∈ c) ∨ ∃ x ∈ c, x ∈ s.trail) :
    ¬Unsettled s'.trail (keyOf id c) := by
  have htrail : s'.trail = s.trail := by rw [h.frame]
  rw [htrail]
  intro hopen
  rcases htrue with ⟨x, hx, hneg⟩ | ⟨x, hx, hpos⟩
  · exact (hopen x (List.mem_toFinset.mpr hx)).2 (List.mem_toFinset.mpr hneg)
  · exact (hopen x (List.mem_toFinset.mpr hx)).1 hpos

theorem Imported.pendingKey (h : Imported id c s s') {out : List ℤ} (hmem : ∀ x, x ∈ out ↔ x ∈ c) :
    ({ s' with simplified := out } : Checker).pendingKey = keyOf id c := by
  have hlast : ({ s' with simplified := out } : Checker).lastId = id := by rw [h.frame]
  rw [Checker.pendingKey, hlast, keyOf]
  refine congrArg (Prod.mk _) (Finset.ext fun x => ?_)
  rw [List.mem_toFinset, List.mem_toFinset]
  exact hmem x

theorem Imported.formula (h : Imported id c s s') : s'.formula = s.formula := by
  have hstore : s'.store = s.store := by rw [h.frame]
  have htrail : s'.trail = s.trail := by rw [h.frame]
  rw [Checker.formula, Checker.formula, hstore, htrail]

theorem not_agrees (h : s.inconsistent = true) : ¬Agrees α s := by
  intro hα
  have hfalse := hα.consistent
  rw [h] at hfalse
  cases hfalse

/-! ## Original clauses -/

theorem run_addOriginalClause (h : Resting s) (hc : (0 : ℤ) ∉ c) (hid : 0 < id) :
    ∃ s', (addOriginalClause id c).run s = (.ok (), s') ∧ Resting s' ∧
      (∀ α, Agrees α s → satisfies α c = true → Agrees α s') ∧
      ∀ ks, Recalls s ks → Recalls s' (keyOf id c ::ₘ ks) := by
  cases h with
  | inl h =>
    exact ⟨s, by rw [addOriginalClause, run_read_bind, h]; rfl, .inl h,
      fun α hα => absurd hα (not_agrees h), fun ks hks => .inl h⟩
  | inr h =>
    obtain ⟨s₁, himported, himport⟩ := run_import h hc id
    have hholds : ∀ ks, Recalls s ks → Holds s₁ ks := fun ks hks =>
      himported.holds (hks.resolve_left (by rw [h.consistent]; exact Bool.false_ne_true))
    rw [addOriginalClause, run_read_bind, h.consistent, Bool.not_false, run_doIf_true, himport]
    rcases himported.tautological hc with ⟨hrun, htrue⟩ | ⟨out, hrun, hmem, hcons, hpending⟩
    · refine ⟨s₁.clear, ?_, Settles.clear (.inr himported.intact), fun α hα _ => Agrees.clear ?_,
        fun ks hks => Recalls.clear (.inr ((hholds ks hks).settled (himported.settled htrue)))⟩
      · rw [run_bind, hrun]
        rfl
      · exact ⟨himported.fits hα.toFits, himported.intact.consistent⟩
    · have hlast : ({ s₁ with simplified := out } : Checker).lastId = id := by rw [himported.frame]
      obtain ⟨s', hadd, hsettles, hfits, hadds⟩ := run_addClause hcons (by rwa [hlast]) hpending
      rw [himported.pendingKey hmem] at hadds
      refine ⟨s'.clear, ?_, hsettles.clear, fun α hα hsat => (hfits α ?_ ?_).clear,
        fun ks hks => (hadds ks ⟨(hholds ks hks).placed, (hholds ks hks).keys⟩).clear⟩
      · rw [run_bind, hrun, andThen_ok, run_bind, Bool.not_false, run_doIf_true, hadd]
        rfl
      · exact (himported.fits hα.toFits).same (.of_eq rfl) rfl
      · exact satisfies_same (fun x hx => (hmem x).mpr hx) hsat

/-! ## Blocked clauses -/

/-- The clause has a literal whose negation occurs in the table only in clauses that are true or that contain
the negation of another literal of the clause, too. -/
def BlockedIn (s : Checker) (c : List ℤ) : Prop :=
  ∃ l ∈ c, ∀ a ∈ s.clauses.flatten, ∀ d, s.clauseAt a = some d →
    (∃ x ∈ d.literals, x ∈ s.trail) ∨ d.literals.filter (fun x => decide (-x ∈ c)) ≠ [-l]

theorem scanMarked_eq (vals : ℤ → ℤ) (marks : ℤ → Bool) (lits : List ℤ) (count : ℕ) (first : ℤ) :
    ((∃ x ∈ lits, 0 < vals x) ∧ (scanMarked vals marks lits count first).1 = 2) ∨
    (¬∃ x ∈ lits, 0 < vals x) ∧ scanMarked vals marks lits count first =
      (count + (lits.filter marks).length, (lits.filter marks).getLastD first) := by
  induction lits generalizing count first with
  | nil => simp [scanMarked]
  | cons l lits ih =>
    rw [scanMarked]
    by_cases hpos : 0 < vals l
    · rw [if_pos hpos]
      exact .inl ⟨⟨l, List.mem_cons_self, hpos⟩, rfl⟩
    · rw [if_neg hpos]
      have hexists : (∃ x ∈ l :: lits, 0 < vals x) ↔ ∃ x ∈ lits, 0 < vals x := by simp [hpos]
      rw [hexists, List.filter_cons]
      by_cases hmark : marks l = true
      · rw [if_pos hmark, if_pos hmark]
        rcases ih (count + 1) l with h | ⟨hnone, heq⟩
        · exact .inl h
        · refine .inr ⟨hnone, ?_⟩
          rw [heq, List.length_cons, List.getLastD_cons]
          congr 1
          omega
      · rw [if_neg hmark, if_neg hmark]
        exact ih count first

/-- The literal found in a clause is its only marked one, and the clause is not true. -/
theorem onlyMarked_iff (h : Consistent s) {marks : ℤ → Bool} (ha : a ∈ s.clauses.flatten) {m : ℤ} :
    s.onlyMarked marks a = some m ↔ ∃ d, s.clauseAt a = some d ∧ (¬∃ x ∈ d.literals, x ∈ s.trail) ∧
      d.literals.filter marks = [m] := by
  obtain ⟨d, hd⟩ := (h.allocated a).mpr (List.mem_append_left _ ha)
  have hsize : d.size = d.literals.length :=
    (h.linked.clause hd).size.resolve_left ((h.live a d hd).mpr ha)
  have htrue : (∃ x ∈ d.literals, 0 < s.vals x) ↔ ∃ x ∈ d.literals, x ∈ s.trail :=
    exists_congr fun x => and_congr_right fun _ => h.assigned.pos
  have honly : s.onlyMarked marks a = if (scanMarked s.vals marks d.literals 0 0).1 = 1 then
      some (scanMarked s.vals marks d.literals 0 0).2 else none := by
    rw [onlyMarked, hd, Option.bind_some, hsize, List.take_length]
  have hscan := scanMarked_eq s.vals marks d.literals 0 0
  rw [htrue] at hscan
  have hunique : (∃ d', s.clauseAt a = some d' ∧ (¬∃ x ∈ d'.literals, x ∈ s.trail) ∧
      d'.literals.filter marks = [m]) ↔ (¬∃ x ∈ d.literals, x ∈ s.trail) ∧ d.literals.filter marks = [m] := by
    constructor
    · rintro ⟨d', hd', hrest⟩
      rw [hd] at hd'
      cases hd'
      exact hrest
    · exact fun hrest => ⟨d, hd, hrest⟩
  rw [honly, hunique]
  rcases hscan with ⟨htrue, hcount⟩ | ⟨hnone, heq⟩
  · rw [hcount, if_neg (by decide)]
    simp [htrue]
  · rw [heq, and_iff_right hnone, Nat.zero_add]
    match d.literals.filter marks with
    | [] => simp
    | [x] => simp
    | x :: y :: rest => simp

theorem run_checkBlocked (h : Consistent s) : ∃ b, checkBlocked.run s = (.ok b, s) ∧
    (b = true ↔ BlockedIn s s.unsimplified) := by
  have hneg : ∀ x, x ∈ negated s.unsimplified ↔ -x ∈ s.unsimplified := by
    intro x
    rw [negated, List.mem_map]
    constructor
    · rintro ⟨y, hy, rfl⟩
      rwa [Int.neg_neg]
    · exact fun hx => ⟨-x, hx, Int.neg_neg x⟩
  have hmarked : setMarks s.marks (negated s.unsimplified) true = fun x => decide (-x ∈ s.unsimplified) := by
    funext x
    rw [setMarks_apply, h.marks]
    simp [hneg]
  have hclear : ∀ ls : List ℤ, setMarks (setMarks (setMarks s.marks (negated s.unsimplified) true) ls false)
      (negated s.unsimplified) false = s.marks := by
    intro ls
    funext x
    rw [setMarks_apply, setMarks_apply, setMarks_apply, h.marks]
    split
    · rfl
    · split <;> rfl
  refine ⟨(negated s.unsimplified).any (setMarks (setMarks s.marks (negated s.unsimplified) true)
    (s.clauses.flatten.filterMap (s.onlyMarked (setMarks s.marks (negated s.unsimplified) true))) false),
    ?_, ?_⟩
  · rw [checkBlocked, run_read_bind, run_bind, h.toTabled.table, run_require_true, andThen_ok]
    simp only
    rw [run_modify_bind, run_pure, hclear]
  · rw [List.any_eq_true, BlockedIn]
    constructor
    · rintro ⟨x, hx, hmark⟩
      rw [setMarks_apply] at hmark
      split at hmark
      · cases hmark
      · next hnot =>
        refine ⟨-x, (hneg x).mp hx, fun a ha d hd => ?_⟩
        rw [Int.neg_neg]
        by_contra hcontra
        rw [not_or, not_not] at hcontra
        refine hnot (List.mem_filterMap.mpr ⟨a, ha, (onlyMarked_iff h ha).mpr ⟨d, hd, hcontra.1, ?_⟩⟩)
        rw [hmarked]
        exact hcontra.2
    · rintro ⟨l, hl, hall⟩
      refine ⟨-l, (hneg (-l)).mpr (by rwa [Int.neg_neg]), ?_⟩
      rw [setMarks_apply, if_neg]
      · exact setMarks_true.mpr (.inl ((hneg (-l)).mpr (by rwa [Int.neg_neg])))
      · intro hmem
        obtain ⟨a, ha, hm⟩ := List.mem_filterMap.mp hmem
        obtain ⟨d, hd, hnone, honly⟩ := (onlyMarked_iff h ha).mp hm
        rw [hmarked] at honly
        exact (hall a ha d hd).elim hnone fun hne => hne honly

/-- Watches have no part in it. -/
theorem BlockedIn.same (h : BlockedIn s c) (hstore : SameStore s s') (hclauses : s'.clauses = s.clauses)
    (htrail : s'.trail = s.trail) : BlockedIn s' c := by
  obtain ⟨l, hl, hall⟩ := h
  refine ⟨l, hl, fun a ha d hd => ?_⟩
  rw [hclauses] at ha
  rw [htrail]
  obtain ⟨e, he, hed⟩ := hstore.back hd
  rcases hall a ha e he with ⟨x, hx, htrue⟩ | hne
  · exact .inl ⟨x, hed.literals.mem_iff.mpr hx, htrue⟩
  · refine .inr fun heq => hne ?_
    have hperm := hed.literals.filter fun x => decide (-x ∈ c)
    rw [heq] at hperm
    exact List.perm_singleton.mp hperm.symm

theorem SameStore.symm (h : SameStore s s') : SameStore s' s := by
  intro a
  rcases h a with ⟨hn, hn'⟩ | ⟨c, d, hc, hd, hcd⟩
  · exact .inl ⟨hn', hn⟩
  · exact .inr ⟨d, c, hd, hc, hcd.hash.symm, hcd.size.symm, hcd.literals.symm⟩

theorem Checked.intact (h : Checked s s') (hs : Consistent s) (hrooted : Rooted s') : Consistent s' := by
  have hframe := h.frame
  refine ⟨hrooted, hs.toTabled.same h.store ?_ ?_ ?_ ?_, ?_, ?_⟩
  · rw [hframe]
  · rw [hframe]
  · rw [hframe]
  · rw [hframe]
  · rw [hframe]
    exact hs.marks
  · rw [hframe]
    exact hs.consistent

/-! ## Derived clauses -/

/-- The two checks of a pending clause. -/
theorem run_derives (h : Consistent s) (hpending : Pending s) : ∃ b s', derives.run s = (.ok b, s') ∧ Checked s s' ∧
    Consistent s' ∧ (b = true ↔ Rup s.formula s.simplified ∨ BlockedIn s s.unsimplified) := by
  obtain ⟨ok, s₁, hcheck, hchecked, hrooted, hiff⟩ :=
    check_spec h.toRooted h.consistent hpending.known hpending.notTrue hpending.clash
  have hcons := hchecked.intact h hrooted
  have hunsimplified : s₁.unsimplified = s.unsimplified := by rw [hchecked.frame]
  have hclauses : s₁.clauses = s.clauses := by rw [hchecked.frame]
  have htrail : s₁.trail = s.trail := by rw [hchecked.frame]
  rw [derives, run_bind, run_lift hcheck, andThen_ok]
  cases ok with
  | true => exact ⟨true, s₁, rfl, hchecked, hcons, by simp [hiff.mp rfl]⟩
  | false =>
    have hnot : ¬Rup s.formula s.simplified := fun hrup => Bool.false_ne_true (hiff.mpr hrup)
    obtain ⟨b, hrun, hblocked⟩ := run_checkBlocked hcons
    refine ⟨b, s₁, hrun, hchecked, hcons, hblocked.trans ?_⟩
    rw [hunsimplified, or_iff_right hnot]
    exact ⟨fun hb => hb.same hchecked.store.symm hclauses.symm htrail.symm,
      fun hb => hb.same hchecked.store hclauses htrail⟩

/-- A derived clause is accepted exactly when unit propagation over the clauses of the checker refutes its
negation or it has a literal that the table blocks. -/
theorem run_addDerivedClause (h : Idle s) (hc : (0 : ℤ) ∉ c) (hid : 0 < id) :
    (Rup s.formula c ∨ BlockedIn s c → ∃ s', (addDerivedClause id c).run s = (.ok (), s') ∧ Resting s' ∧
      (∀ α, Agrees α s → satisfies α c = true → Agrees α s') ∧
      ∀ ks, Recalls s ks → Recalls s' (keyOf id c ::ₘ ks)) ∧
    (¬(Rup s.formula c ∨ BlockedIn s c) → ((addDerivedClause id c).run s).1 =
      .error (.fatal ("failed to check derived clause:\n" ++ clauseText c))) := by
  obtain ⟨s₁, himported, himport⟩ := run_import h hc id
  have hholds : ∀ ks, Recalls s ks → Holds s₁ ks := fun ks hks =>
    himported.holds (hks.resolve_left (by rw [h.consistent]; exact Bool.false_ne_true))
  rw [addDerivedClause, run_read_bind, h.consistent, Bool.not_false, run_doIf_true, himport]
  rcases himported.tautological hc with ⟨hrun, htrue⟩ | ⟨out, hrun, hmem, hcons, hpending⟩
  · have hrup : Rup s.formula c := by
      rcases htrue with ⟨x, hx, hneg⟩ | ⟨x, hx, htrail⟩
      · exact rup_of_clash hx hneg
      · exact rup_of_unit hx (mem_formula.mpr (.inr ⟨x, htrail, rfl⟩))
    refine ⟨fun _ => ⟨s₁.clear, ?_, Settles.clear (.inr himported.intact), fun α hα _ => Agrees.clear ?_,
        fun ks hks => Recalls.clear (.inr ((hholds ks hks).settled (himported.settled htrue)))⟩,
      fun hnot => absurd (.inl hrup) hnot⟩
    · rw [run_bind, hrun]
      rfl
    · exact ⟨himported.fits hα.toFits, himported.intact.consistent⟩
  · obtain ⟨b, s₂, hderives, hchecked, hgood₂, hiff⟩ := run_derives hcons hpending
    have hlast : s₂.lastId = id := by rw [hchecked.frame, himported.frame]
    have hunsimplified : s₂.unsimplified = c := by rw [hchecked.frame, himported.frame]
    have hsimplified : s₂.simplified = out := by rw [hchecked.frame]
    have hvars : s₂.sizeVars = s₁.sizeVars := by rw [hchecked.frame]
    have htrail : s₂.trail = s₁.trail := by rw [hchecked.frame]
    -- the checks of the imported clause are those of the clause in the state before
    have hformula : ({ s₁ with simplified := out } : Checker).formula = s.formula := himported.formula
    have hstore : s₁.store = s.store := by rw [himported.frame]
    have htrail₁ : s₁.trail = s.trail := by rw [himported.frame]
    have hclauses₁ : s₁.clauses = s.clauses := by rw [himported.frame]
    have hunsimplified₁ : s₁.unsimplified = c := by rw [himported.frame]
    have hsame : ∀ cl ∈ s.formula, ∃ d ∈ s.formula, SameLiterals cl d :=
      fun cl hcl => ⟨cl, hcl, fun _ => Iff.rfl⟩
    have hrup : Rup s.formula out ↔ Rup s.formula c :=
      ⟨fun hr => hr.mono hsame fun x hx => (hmem x).mp hx, fun hr => hr.mono hsame fun x hx => (hmem x).mpr hx⟩
    have hblocked : BlockedIn { s₁ with simplified := out } c ↔ BlockedIn s c :=
      ⟨fun hb => hb.same (.of_eq hstore.symm) hclauses₁.symm htrail₁.symm,
        fun hb => hb.same (.of_eq hstore) hclauses₁ htrail₁⟩
    have haccept : b = true ↔ Rup s.formula c ∨ BlockedIn s c := by
      rw [hiff, hformula]
      refine or_congr hrup ?_
      rw [← hblocked]
      exact iff_of_eq (congrArg (BlockedIn _) hunsimplified₁)
    have hgoes : ∀ {β : Type} (k : Bool → CheckerM β), (Checker.tautological >>= k).run s₁ =
        (k false).run { s₁ with simplified := out } := by
      intro β k
      rw [run_bind, hrun, andThen_ok]
    constructor
    · intro hok
      obtain ⟨s', hadd, hsettles, hfits, hadds⟩ := run_addClause hgood₂ (by rwa [hlast])
        (hpending.congr hsimplified hvars htrail)
      have hkey : s₂.pendingKey = keyOf id c := by
        rw [← himported.pendingKey hmem, pendingKey, pendingKey, hsimplified, hlast]
        rw [himported.frame]
      rw [hkey] at hadds
      have hclauses₂ : s₂.clauses = s₁.clauses := by rw [hchecked.frame]
      have hstore₂ : SameStore s₁ s₂ := SameStore.trans (.of_eq rfl) hchecked.store
      refine ⟨s'.clear, ?_, hsettles.clear, fun α hα hsat => (hfits α ?_ ?_).clear, fun ks hks => Recalls.clear
        (hadds ks ((hholds ks hks).same hstore₂ hclauses₂ (by rw [htrail]; exact fun x hx => hx)))⟩
      · rw [hgoes, run_bind, Bool.not_false, run_doIf_true, run_bind, hderives, andThen_ok, run_read_bind,
          run_bind, haccept.mpr hok, run_require_true, andThen_ok, hadd]
        rfl
      · exact (himported.fits hα.toFits).same (SameStore.trans (.of_eq rfl) hchecked.store) htrail
      · rw [hsimplified]
        exact satisfies_same (fun x hx => (hmem x).mpr hx) hsat
    · intro hnot
      have hfalse : b = false := by
        cases b with
        | false => rfl
        | true => exact absurd (haccept.mp rfl) hnot
      rw [hgoes, run_bind, Bool.not_false, run_doIf_true, run_bind, hderives, andThen_ok, run_read_bind,
        run_bind, hfalse, run_require_false, hunsimplified]
      rfl

end Zusat.Checker
