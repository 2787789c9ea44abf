import Zusat.Foundations.Redundancy
import Zusat.Lrat.Marks

/-! # What the checks of the LRAT checker establish

A chain that passes `check` makes the clause true in every model of the table. A clause that passes
`check_blocked` is blocked on one of its literals, provided that the clauses named by the chain repeat no
literal: the count of clashes does not tell two literals from two copies of one. Every check leaves the
checker as it found it. -/

namespace Zusat.LratChecker
open Foundations Foundations.Prog
set_option autoImplicit false

/-- The literal has an index in the arrays. -/
def known (s : LratChecker) (l : ℤ) : Prop := l ≠ 0 ∧ l.natAbs < s.sizeVars

/-- The state in which a clause is checked. -/
structure Ready (s : LratChecker) : Prop where
  checked : s.checkedLits = clear
  marks : s.marks = clear
  imported : ∀ l ∈ s.importedClause, s.known l
  table : ∀ c ∈ s.clauses.flatten, c.garbage = false ∧ ∀ l ∈ c.literals, s.known l

theorem Ready.state {s : LratChecker} (hs : Ready s) : { s with checkedLits := clear, marks := clear } = s := by
  obtain ⟨hchecked, hmarks, -, -⟩ := hs
  cases s
  cases hchecked
  cases hmarks
  rfl

/-! ## Reverse unit propagation -/

theorem scan_falsified {m : ℤ → Bool} {ls : List ℤ} {u : UnitScan} (h : scan m ls u = .falsified) :
    u = .falsified ∧ ∀ l ∈ ls, m (-l) = true := by
  induction ls generalizing u with
  | nil => exact ⟨h, by simp⟩
  | cons l ls ih =>
    unfold scan at h
    split at h
    · next hl =>
      obtain ⟨hu, hall⟩ := ih h
      exact ⟨hu, List.forall_mem_cons.mpr ⟨hl, hall⟩⟩
    · cases u with
      | falsified => exact absurd (ih h).1 (by simp)
      | unit x =>
        simp only at h
        split at h
        · exact absurd (ih h).1 (by simp)
        · cases h
      | several => cases h

theorem scan_unit {m : ℤ → Bool} {ls : List ℤ} {u : UnitScan} {x : ℤ} (h : scan m ls u = .unit x) :
    (u = .falsified ∨ u = .unit x) ∧ ∀ l ∈ ls, m (-l) = true ∨ l = x := by
  induction ls generalizing u with
  | nil => exact ⟨.inr h, by simp⟩
  | cons l ls ih =>
    unfold scan at h
    split at h
    · next hl =>
      obtain ⟨hu, hall⟩ := ih h
      exact ⟨hu, List.forall_mem_cons.mpr ⟨.inl hl, hall⟩⟩
    · cases u with
      | falsified =>
        obtain ⟨hu, hall⟩ := ih h
        have hx : l = x := by simpa using hu
        exact ⟨.inl rfl, List.forall_mem_cons.mpr ⟨.inr hx, hall⟩⟩
      | unit y =>
        simp only at h
        split at h
        · next hy =>
          obtain ⟨hu, hall⟩ := ih h
          have hx : l = x := by simpa using hu
          exact ⟨.inr (by rw [hy, hx]), List.forall_mem_cons.mpr ⟨.inr hx, hall⟩⟩
        · cases h
      | several => cases h

theorem not_holds_of_neg {β : Assignment} {l : ℤ} (hl : l ≠ 0) (h : holds β (-l) = true) :
    holds β l = false := by
  rw [holds_neg hl] at h
  exact Bool.not_eq_true' _ ▸ h

/-- The marks are true in a model of the table, so a clause of the chain is never falsified. -/
theorem checkChain_sound {s s' : LratChecker} (hs : Ready s) {chain used : List ℤ} {m : ℤ → Bool} {b : Bool}
    (h : (checkChain chain used m).run s = (.ok b, s')) :
    s' = s ∧ (b = true → ∀ β, models β s.table = true → (∀ x, m x = true → holds β x = true) → False) := by
  induction chain generalizing used m with
  | nil =>
    cases h
    exact ⟨rfl, by simp⟩
  | cons id ids ih =>
    obtain ⟨r, s₁, hfind, h⟩ := run_bind_ok.mp h
    obtain ⟨rfl, -, -, hr⟩ := run_find_ok hfind
    have hfail : ∀ {s₂ : LratChecker}, ((.ok false, s₁) : Except LratFailure Bool × LratChecker) = (.ok b, s₂) →
        s₂ = s₁ ∧ (b = true → ∀ β, models β s₁.table = true → (∀ x, m x = true → holds β x = true) →
          False) := by
      intro s₂ h
      cases h
      exact ⟨rfl, by simp⟩
    cases r with
    | none => exact hfail h
    | some c =>
      obtain ⟨hmem, -⟩ := found_mem hr.symm
      have hclause : c.literals ∈ s₁.table := List.mem_map_of_mem hmem
      have hnot : ∀ β, (∀ x, m x = true → holds β x = true) → ∀ l ∈ c.literals, m (-l) = true →
          holds β l = false := fun β hβ l hl hml =>
        not_holds_of_neg ((hs.table c hmem).2 l hl).1 (hβ _ hml)
      simp only at h
      split_ifs at h
      · exact hfail h
      · exact hfail h
      · cases hscan : scan m c.literals .falsified with
        | several =>
          rw [hscan] at h
          exact hfail h
        | falsified =>
          rw [hscan] at h
          cases h
          refine ⟨rfl, fun _ β hβ hm => ?_⟩
          obtain ⟨l, hl, htrue⟩ := satisfies_iff.mp (models_iff.mp hβ _ hclause)
          rw [hnot β hm l hl ((scan_falsified hscan).2 l hl)] at htrue
          cases htrue
        | unit x =>
          rw [hscan] at h
          obtain ⟨rfl, hsound⟩ := ih h
          refine ⟨rfl, fun hb β hβ hm => hsound hb β hβ fun y hy => ?_⟩
          by_cases hyx : y = x
          · -- the one literal that is not falsified
            obtain ⟨l, hl, htrue⟩ := satisfies_iff.mp (models_iff.mp hβ _ hclause)
            rcases (scan_unit hscan).2 l hl with hml | rfl
            · rw [hnot β hm l hl hml] at htrue
              cases htrue
            · rwa [hyx]
          · rw [Function.update_of_ne hyx] at hy
            exact hm y hy

/-- The table makes the clause true. -/
def Implied (s : LratChecker) : Prop :=
  ∀ β, models β s.table = true → satisfies β s.importedClause = true

theorem implied_of_taut {s : LratChecker} (hs : Ready s) (h : ∃ l ∈ s.importedClause, -l ∈ s.importedClause) :
    Implied s := by
  intro β _
  obtain ⟨l, hl, hneg⟩ := h
  cases hh : holds β l with
  | true => exact satisfies_iff.mpr ⟨l, hl, hh⟩
  | false =>
    refine satisfies_iff.mpr ⟨-l, hneg, ?_⟩
    rw [holds_neg (hs.imported l hl).1, hh]
    rfl

theorem check_sound {s s' : LratChecker} (hs : Ready s) {chain : List ℤ} {b : Bool}
    (h : (check chain).run s = (.ok b, s')) : s' = s ∧ (b = true → Implied s) := by
  rw [check, run_read_bind, hs.checked] at h
  simp only at h
  split_ifs at h with hskip
  · rw [run_modify_bind] at h
    cases h
    rw [falsify_clear, ← hs.checked]
    exact ⟨rfl, fun hb => implied_of_taut hs (falsify_taut.mp (by rwa [hs.checked] at hb))⟩
  · obtain ⟨checking, s₂, hchain, hend⟩ := run_bind_ok.mp h
    obtain ⟨rfl, hsound⟩ := checkChain_sound hs hchain
    rw [run_modify_bind] at hend
    cases hend
    have hstate : ({ s₂ with checkedLits := fun _ => false } : LratChecker) = s₂ :=
      congrArg (fun m => { s₂ with checkedLits := m }) hs.checked.symm
    refine ⟨hstate, fun hb β hβ => ?_⟩
    by_contra hfalse
    refine hsound hb β hβ fun x hx => ?_
    -- the negations of the clause are assigned, and the clause is false
    have hmem : -x ∈ s₂.importedClause := mem_negated.mp (falsify_marks.mp hx)
    have hx0 : x ≠ 0 := fun h0 => (hs.imported _ hmem).1 (by rw [h0]; rfl)
    by_contra hhold
    refine hfalse (satisfies_iff.mpr ⟨-x, hmem, ?_⟩)
    rw [Bool.not_eq_true] at hhold
    rw [holds_neg hx0, hhold]
    rfl

/-! ## Resolution

The second check of a chain is stricter. It matters here only that it cleans up after itself. -/

theorem known_neg {s : LratChecker} {l : ℤ} : s.known (-l) ↔ s.known l := by
  rw [known, known, Int.natAbs_neg, ne_eq, Int.neg_eq_zero]

theorem update_known {s : LratChecker} {m : ℤ → Bool} (hm : ∀ x, m x = true → s.known x) {l : ℤ}
    (hl : s.known l) (b : Bool) : ∀ x, Function.update m l b x = true → s.known x := by
  intro x hx
  by_cases hxl : x = l
  · rwa [hxl]
  · rw [Function.update_of_ne hxl] at hx
    exact hm x hx

theorem resolve_known {s : LratChecker} {ls : List ℤ} {m : ℤ → Bool} (hm : ∀ x, m x = true → s.known x)
    (hls : ∀ l ∈ ls, s.known l) : ∀ x, resolve m ls x = true → s.known x := by
  unfold resolve
  induction ls generalizing m with
  | nil => exact hm
  | cons l ls ih =>
    have hl := hls l (List.mem_cons_self ..)
    rw [List.foldl_cons]
    refine ih ?_ fun x hx => hls x (List.mem_cons_of_mem l hx)
    split
    · exact update_known hm (known_neg.mpr hl) false
    · exact update_known hm hl true

theorem resolveChain_known {s s' : LratChecker} (hs : Ready s) {ids : List ℤ} {m m' : ℤ → Bool}
    (hm : ∀ x, m x = true → s.known x) (h : (resolveChain ids m).run s = (.ok m', s')) :
    s' = s ∧ ∀ x, m' x = true → s.known x := by
  induction ids generalizing m with
  | nil =>
    cases h
    exact ⟨rfl, hm⟩
  | cons id ids ih =>
    obtain ⟨r, s₁, hfind, hrest⟩ := run_bind_ok.mp h
    obtain ⟨rfl, -, -, hr⟩ := run_find_ok hfind
    cases r with
    | none => cases hrest
    | some c =>
      obtain ⟨hmem, -⟩ := found_mem hr.symm
      exact ih (resolve_known hm (hs.table c hmem).2) hrest

theorem matchClause_known {s : LratChecker} {ls : List ℤ} {m m' : ℤ → Bool}
    (hm : ∀ x, m x = true → s.known x) (hls : ∀ l ∈ ls, s.known l) (h : matchClause ls m = some m') :
    ∀ x, m' x = true → s.known x := by
  induction ls generalizing m with
  | nil =>
    cases h
    exact hm
  | cons l ls ih =>
    have hl := hls l (List.mem_cons_self ..)
    rw [matchClause] at h
    split at h
    · cases h
    · exact ih (update_known (update_known hm hl true) (known_neg.mpr hl) true)
        (fun x hx => hls x (List.mem_cons_of_mem l hx)) h

/-- Clearing every variable clears everything. -/
theorem clear_known {s : LratChecker} {m : ℤ → Bool} (hm : ∀ x, m x = true → s.known x) :
    let vars := (List.range' 1 (s.sizeVars - 1)).map fun v : ℕ => (v : ℤ)
    setMarks (setMarks m vars false) (negated vars) false = clear := by
  intro vars
  have hvars : ∀ x : ℤ, 0 < x → x.natAbs < s.sizeVars → x ∈ vars := by
    intro x hx hlt
    rw [List.mem_map]
    refine ⟨x.natAbs, ?_, Int.natAbs_of_nonneg hx.le⟩
    rw [List.mem_range'_1]
    omega
  refine setMarks_clear fun x hx => ?_
  rw [setMarks_apply] at hx
  split at hx
  · cases hx
  · next hnot =>
    obtain ⟨h0, hlt⟩ := hm x hx
    rw [mem_negated]
    refine hvars (-x) ?_ (by rwa [Int.natAbs_neg])
    have hnonpos : ¬0 < x := fun hpos => hnot (hvars x hpos hlt)
    omega

theorem checkResolution_state {s s' : LratChecker} (hs : Ready s) {chain : List ℤ} {b : Bool}
    (h : (checkResolution chain).run s = (.ok b, s')) : s' = s := by
  have hstate : ∀ m : ℤ → Bool, m = clear → ({ s with checkedLits := m } : LratChecker) = s := by
    intro m hm
    rw [hm, ← hs.checked]
  rw [checkResolution, run_read_bind] at h
  split_ifs at h
  · exact (congrArg Prod.snd h).symm
  · exact (congrArg Prod.snd h).symm
  · obtain ⟨r, s₁, hfind, hrest⟩ := run_bind_ok.mp h
    obtain ⟨rfl, -, -, hr⟩ := run_find_ok hfind
    cases r with
    | none => cases hrest
    | some c =>
      obtain ⟨hmem, -⟩ := found_mem hr.symm
      obtain ⟨m, s₂, hchain, hend⟩ := run_bind_ok.mp hrest
      have hstart : ∀ x, setMarks s₁.checkedLits c.literals true x = true → s₁.known x := by
        intro x hx
        rcases setMarks_true.mp hx with hx | hx
        · exact (hs.table c hmem).2 x hx
        · rw [hs.checked] at hx
          cases hx
      obtain ⟨rfl, hm⟩ := resolveChain_known hs hstart hchain
      cases hmatch : matchClause s₂.importedClause m with
      | none =>
        rw [hmatch] at hend
        cases hend
        exact hstate _ rfl
      | some m' =>
        rw [hmatch] at hend
        cases hend
        exact hstate _ (clear_known (matchClause_known hm hs.imported hmatch))

/-! ## Blocked clauses -/

theorem dropCandidates_apply (checked m : ℤ → Bool) (c : LratCheckerClause) (x : ℤ) :
    dropCandidates checked m c x = true ↔ m x = true ∧ ¬(x ∈ c.literals ∧ checked x = true) := by
  unfold dropCandidates
  generalize c.literals = ls
  induction ls generalizing m with
  | nil => simp
  | cons l ls ih =>
    rw [List.foldl_cons, ih]
    by_cases hl : checked l = true
    · rw [if_pos hl]
      by_cases hx : x = l
      · subst hx
        simp [hl]
      · rw [Function.update_of_ne hx]
        simp [hx]
    · rw [if_neg hl]
      by_cases hx : x = l
      · subst hx
        simp [hl]
      · simp [hx]

theorem keepCandidates_le {imported : List ℤ} {m : ℤ → Bool} {c : LratCheckerClause} {x : ℤ}
    (h : keepCandidates imported m c x = true) : m x = true := by
  unfold keepCandidates at h
  generalize c.literals.filter m = candidates at h
  induction imported generalizing m with
  | nil => exact h
  | cons l ls ih =>
    rw [List.foldl_cons] at h
    have hstep := ih h
    split at hstep
    · by_cases hx : x = -l
      · rw [hx, Function.update_self] at hstep
        cases hstep
      · rwa [Function.update_of_ne hx] at hstep
    · exact hstep

section Loop
variable {chain imported : List ℤ} {checked : ℤ → Bool}

/-- The loop only clears marks. -/
theorem blockedLoop_le {cs : List LratCheckerClause} {m : ℤ → Bool} {x : ℤ}
    (h : (blockedLoop chain imported checked cs m).2 x = true) : m x = true := by
  induction cs generalizing m with
  | nil => exact h
  | cons c cs ih =>
    rw [blockedLoop] at h
    split_ifs at h
    · exact ih h
    · exact h
    · exact keepCandidates_le (ih h)
    · exact ((dropCandidates_apply checked m c x).mp (ih h)).1

theorem blockedLoop_cons {d : LratCheckerClause} (hd : d.garbage = false) (cs : List LratCheckerClause)
    (m : ℤ → Bool) : blockedLoop chain imported checked (d :: cs) m =
      if chain.contains (-d.id) then
        if d.literals.countP checked < 2 then (false, m)
        else blockedLoop chain imported checked cs (keepCandidates imported m d)
      else blockedLoop chain imported checked cs (dropCandidates checked m d) := by
  rw [blockedLoop, if_neg (by rw [hd]; exact Bool.false_ne_true)]

/-- What the loop has checked of each clause of the table when it comes to its end. -/
theorem blockedLoop_passed {cs : List LratCheckerClause} {m : ℤ → Bool}
    (h : (blockedLoop chain imported checked cs m).1 = true) (hlive : ∀ c ∈ cs, c.garbage = false)
    {c : LratCheckerClause} (hc : c ∈ cs) :
    (chain.contains (-c.id) = true → 2 ≤ c.literals.countP checked) ∧
      (chain.contains (-c.id) = false → ∀ x ∈ c.literals, checked x = true →
        (blockedLoop chain imported checked cs m).2 x = false) := by
  induction cs generalizing m with
  | nil => cases hc
  | cons d cs ih =>
    have hrest : ∀ c ∈ cs, c.garbage = false := fun c hc => hlive c (List.mem_cons_of_mem d hc)
    rw [blockedLoop_cons (hlive d (List.mem_cons_self ..))] at h ⊢
    cases hnamed : chain.contains (-d.id) with
    | true =>
      rw [hnamed, if_pos rfl] at h
      rw [if_pos rfl]
      split_ifs at h ⊢ with hcount
      rcases List.mem_cons.mp hc with rfl | hc
      · refine ⟨fun _ => not_lt.mp hcount, fun hnot => ?_⟩
        rw [hnamed] at hnot
        cases hnot
      · exact ih h hrest hc
    | false =>
      rw [hnamed, if_neg Bool.false_ne_true] at h
      rw [if_neg Bool.false_ne_true]
      rcases List.mem_cons.mp hc with rfl | hc
      · refine ⟨fun hin => absurd (hnamed.symm.trans hin) Bool.false_ne_true, fun _ x hx hchecked => ?_⟩
        by_contra hmarked
        rw [Bool.not_eq_false] at hmarked
        exact ((dropCandidates_apply checked m c x).mp (blockedLoop_le hmarked)).2 ⟨hx, hchecked⟩
      · exact ih h hrest hc

end Loop

/-- The marks `check_blocked` has left after its loop. -/
def survivors (chain c : List ℤ) (cs : List LratCheckerClause) : ℤ → Bool :=
  (blockedLoop chain c (setMarks clear (negated c) true) cs (setMarks clear (negated c) true)).2

/-- The first literal on which `check_blocked` takes the clause to be blocked. -/
def pivot (chain c : List ℤ) (cs : List LratCheckerClause) : Option ℤ :=
  c.find? fun l => survivors chain c cs (-l)

theorem checkBlocked_state {s s' : LratChecker} (hs : Ready s) {chain : List ℤ} {b : Bool}
    (h : (checkBlocked chain).run s = (.ok b, s')) :
    s' = s ∧ b = ((blockedLoop chain s.importedClause (setMarks clear (negated s.importedClause) true)
      s.clauses.flatten (setMarks clear (negated s.importedClause) true)).1 &&
        (negated s.importedClause).any (survivors chain s.importedClause s.clauses.flatten)) := by
  rw [checkBlocked, run_read_bind, hs.checked, hs.marks] at h
  cases h
  refine ⟨?_, rfl⟩
  have hchecked : setMarks (setMarks clear (negated s.importedClause) true) (negated s.importedClause) false =
      clear := setMarks_clear fun x hx => (setMarks_true.mp hx).resolve_right Bool.false_ne_true
  have hmarks : setMarks (survivors chain s.importedClause s.clauses.flatten) (negated s.importedClause) false =
      clear := setMarks_clear fun x hx =>
    (setMarks_true.mp (blockedLoop_le hx)).resolve_right Bool.false_ne_true
  rw [hchecked]
  exact (congrArg (fun m => { s with checkedLits := clear, marks := m }) hmarks).trans hs.state

/-- Two clashes with a clause that repeats no literal are clashes in two literals. -/
theorem exists_other_clash {ls : List ℤ} {p : ℤ → Bool} (hnodup : ls.Nodup) (h : 2 ≤ ls.countP p) (x : ℤ) :
    ∃ y ∈ ls, y ≠ x ∧ p y = true := by
  rw [List.countP_eq_length_filter] at h
  have hfilter : (ls.filter p).Nodup := hnodup.filter p
  match hls : ls.filter p with
  | [] => rw [hls] at h; simp at h
  | [_] => rw [hls] at h; simp at h
  | y :: z :: rest =>
    have hmem : ∀ w ∈ y :: z :: rest, w ∈ ls ∧ p w = true := fun w hw => List.mem_filter.mp (hls ▸ hw)
    rw [hls, List.nodup_cons] at hfilter
    have hyz : y ≠ z := fun heq => hfilter.1 (heq ▸ List.mem_cons_self ..)
    obtain ⟨hy, hpy⟩ := hmem y (by simp)
    obtain ⟨hz, hpz⟩ := hmem z (by simp)
    by_cases hyx : y = x
    · exact ⟨z, hz, fun hzx => hyz (hyx.trans hzx.symm), hpz⟩
    · exact ⟨y, hy, hyx, hpy⟩

theorem checkBlocked_sound {s s' : LratChecker} (hs : Ready s) {chain : List ℤ}
    (h : (checkBlocked chain).run s = (.ok true, s')) :
    ∃ l, pivot chain s.importedClause s.clauses.flatten = some l ∧
      ((∀ d ∈ s.clauses.flatten, chain.contains (-d.id) = true → d.literals.Nodup) →
        Blocked s.table s.importedClause l) := by
  obtain ⟨-, hb⟩ := checkBlocked_state hs h
  obtain ⟨hpassed, hany⟩ := (Bool.and_eq_true _ _).mp hb.symm
  obtain ⟨x, hx, hsurvives⟩ := List.any_eq_true.mp hany
  have hsome : (pivot chain s.importedClause s.clauses.flatten).isSome = true := by
    rw [pivot, List.find?_isSome]
    exact ⟨-x, mem_negated.mp hx, by rwa [Int.neg_neg]⟩
  obtain ⟨l, hl⟩ := Option.isSome_iff_exists.mp hsome
  refine ⟨l, hl, fun hnodup => ⟨List.mem_of_find?_eq_some hl, ?_⟩⟩
  have hpivot : survivors chain s.importedClause s.clauses.flatten (-l) = true := by
    have hfound := hl
    rw [pivot] at hfound
    simpa using List.find?_some hfound
  have hchecked : ∀ y, setMarks clear (negated s.importedClause) true y = true ↔ -y ∈ s.importedClause := by
    intro y
    rw [setMarks_true, mem_negated, or_iff_left Bool.false_ne_true]
  intro D hD hneg
  obtain ⟨d, hd, rfl⟩ := List.mem_map.mp hD
  obtain ⟨hcount, hdrop⟩ := blockedLoop_passed hpassed (fun c hc => (hs.table c hc).1) hd
  cases hnamed : chain.contains (-d.id) with
  | true =>
    obtain ⟨y, hy, hne, hyc⟩ := exists_other_clash (hnodup d hd hnamed) (hcount hnamed) (-l)
    exact ⟨y, hy, hne, (hchecked y).mp hyc⟩
  | false =>
    -- a clause the chain does not name takes the mark of its clash away
    have hmem : - -l ∈ s.importedClause := by
      rw [Int.neg_neg]
      exact List.mem_of_find?_eq_some hl
    have hcleared := hdrop hnamed (-l) hneg ((hchecked (-l)).mpr hmem)
    rw [survivors, hcleared] at hpivot
    cases hpivot

/-! ## Both -/

theorem chainDerives_sound {s s' : LratChecker} (hs : Ready s) {chain : List ℤ} {b : Bool}
    (h : (chainDerives chain).run s = (.ok b, s')) : s' = s ∧ (b = true → Implied s) := by
  obtain ⟨rup, s₁, hcheck, hrest⟩ := run_bind_ok.mp h
  obtain ⟨rfl, himplied⟩ := check_sound hs hcheck
  cases rup with
  | true => exact ⟨checkResolution_state hs hrest, fun _ => himplied rfl⟩
  | false =>
    cases hrest
    exact ⟨rfl, by simp⟩

end Zusat.LratChecker
