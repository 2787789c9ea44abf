import Zusat.Lrat.Checks

/-! # What a call of the LRAT checker does

Every call that returns leaves the table in order and both arrays of marks clear. What it did to the clauses
is stated up to the order in which the table holds them. -/

namespace Zusat.LratChecker
open Foundations Foundations.Prog
set_option autoImplicit false

/-- The clause is as `new_clause` makes it. -/
structure WellMade (s : LratChecker) (c : LratCheckerClause) : Prop where
  hash : c.hash = computeHash c.id
  garbage : c.garbage = false
  tautological : c.tautological = true ↔ ∃ l ∈ c.literals, -l ∈ c.literals
  known : ∀ l ∈ c.literals, s.known l

/-- What holds between the steps of a call too. -/
structure TableInOrder (s : LratChecker) : Prop where
  checked : s.checkedLits = clear
  marks : s.marks = clear
  placed : Buckets.Placed (fun c => reduceHash c.hash s.clauses.length) s.clauses
  size : s.clauses.length = 0 ∨ ∃ k, s.clauses.length = 2 ^ k
  count : s.numClauses = s.clauses.flatten.length
  load : s.numClauses ≤ s.clauses.length
  garbage : s.numGarbage = s.garbage.length
  table : ∀ c ∈ s.clauses.flatten, WellMade s c

/-- What holds between calls: nothing is imported, and fewer clauses wait for collection than half of the
larger table. -/
structure TableAtRest (s : LratChecker) : Prop extends TableInOrder s where
  imported : s.importedClause = []
  waiting : 2 * s.numGarbage ≤ max s.clauses.length s.sizeVars

theorem tableAtRest_new : TableAtRest new := by
  refine ⟨⟨rfl, rfl, ?_, .inl rfl, rfl, Nat.le_refl _, rfl, ?_⟩, rfl, Nat.zero_le _⟩
  · intro i a ha
    cases ha
  · intro c hc
    cases hc

/-- The table and the marks are the same, and there is room for as many variables. -/
structure SameTable (s s' : LratChecker) : Prop where
  checked : s'.checkedLits = s.checkedLits
  marks : s'.marks = s.marks
  clauses : s'.clauses = s.clauses
  numClauses : s'.numClauses = s.numClauses
  numGarbage : s'.numGarbage = s.numGarbage
  garbage : s'.garbage = s.garbage
  sizeVars : s.sizeVars ≤ s'.sizeVars

theorem WellMade.mono {s s' : LratChecker} {c : LratCheckerClause} (h : WellMade s c)
    (hle : s.sizeVars ≤ s'.sizeVars) : WellMade s' c :=
  ⟨h.hash, h.garbage, h.tautological, fun l hl =>
    ⟨(h.known l hl).1, Nat.lt_of_lt_of_le (h.known l hl).2 hle⟩⟩

theorem TableInOrder.same {s s' : LratChecker} (hs : TableInOrder s) (h : SameTable s s') : TableInOrder s' := by
  refine ⟨h.checked.trans hs.checked, h.marks.trans hs.marks, ?_, ?_, ?_, ?_, ?_, ?_⟩
  · rw [h.clauses]
    exact hs.placed
  · rw [h.clauses]
    exact hs.size
  · rw [h.clauses, h.numClauses]
    exact hs.count
  · rw [h.clauses, h.numClauses]
    exact hs.load
  · rw [h.garbage, h.numGarbage]
    exact hs.garbage
  · rw [h.clauses]
    exact fun c hc => (hs.table c hc).mono h.sizeVars

theorem TableAtRest.waiting_same {s s' : LratChecker} (hs : TableAtRest s) (h : SameTable s s') :
    2 * s'.numGarbage ≤ max s'.clauses.length s'.sizeVars := by
  have hsize := h.sizeVars
  have hwaiting := hs.waiting
  rw [h.clauses, h.numGarbage]
  omega

theorem TableAtRest.same {s s' : LratChecker} (hs : TableAtRest s) (h : SameTable s s')
    (himported : s'.importedClause = []) : TableAtRest s' :=
  ⟨hs.toTableInOrder.same h, himported, hs.waiting_same h⟩

/-- A clause has been imported: nothing else has changed, and it can be checked. -/
theorem TableInOrder.ready {s : LratChecker} (hs : TableInOrder s) (h : ∀ l ∈ s.importedClause, s.known l) : Ready s :=
  ⟨hs.checked, hs.marks, h, fun c hc => ⟨(hs.table c hc).garbage, (hs.table c hc).known⟩⟩

/-! ## The table -/

/-- No clause of the table has the identifier when none is found. -/
theorem find_none {s : LratChecker} (hs : TableInOrder s) {id : ℤ}
    (h : Buckets.find s.clauses (s.slot id) (isClause id) = none) :
    ∀ c ∈ s.clauses.flatten, c.id ≠ id := by
  have hindex : ∀ c ∈ s.clauses.flatten, isClause id c = true →
      reduceHash c.hash s.clauses.length = s.slot id := by
    intro c _ hc
    rw [isClause, Bool.and_eq_true, beq_iff_eq] at hc
    rw [hc.1, slot]
  rintro c hc rfl
  have hnot := (Buckets.find_eq_none_iff hs.placed hindex).mp h c hc
  rw [isClause, (hs.table c hc).hash, beq_self_eq_true, beq_self_eq_true] at hnot
  cases hnot

theorem enlargeClauses_spec {s : LratChecker} (hs : TableInOrder s) (hfull : s.numClauses = s.clauses.length) :
    TableInOrder s.enlargeClauses ∧ s.enlargeClauses = { s with clauses := s.enlargeClauses.clauses } ∧
      s.enlargeClauses.clauses.flatten.Perm s.clauses.flatten ∧
      s.numClauses < s.enlargeClauses.clauses.length := by
  have hpos : 0 < if s.clauses.length = 0 then 1 else 2 * s.clauses.length := by split <;> omega
  have hindex : ∀ c ∈ s.clauses.flatten, reduceHash c.hash
      (if s.clauses.length = 0 then 1 else 2 * s.clauses.length) <
        if s.clauses.length = 0 then 1 else 2 * s.clauses.length := fun c _ => reduceHash_lt hpos
  obtain ⟨hlen, hperm, hplaced⟩ := Buckets.rehash_spec hindex
  have hgrow : s.numClauses < s.enlargeClauses.clauses.length := by
    rw [enlargeClauses, hlen, hfull]
    split <;> omega
  refine ⟨⟨hs.checked, hs.marks, ?_, ?_, ?_, hgrow.le, hs.garbage, ?_⟩, rfl, hperm, hgrow⟩
  · rw [enlargeClauses, hlen]
    exact hplaced
  · rw [enlargeClauses, hlen]
    split
    · exact .inr ⟨0, rfl⟩
    · next hne =>
      obtain ⟨k, hk⟩ := hs.size.resolve_left hne
      exact .inr ⟨k + 1, by rw [hk, Nat.pow_succ, Nat.mul_comm]⟩
  · exact hs.count.trans hperm.length_eq.symm
  · exact fun c hc => ⟨(hs.table c (hperm.mem_iff.mp hc)).hash, (hs.table c (hperm.mem_iff.mp hc)).garbage,
      (hs.table c (hperm.mem_iff.mp hc)).tautological, (hs.table c (hperm.mem_iff.mp hc)).known⟩

/-- What `new_clause` makes of the imported clause. -/
def made (s : LratChecker) : LratCheckerClause :=
  ⟨computeHash s.lastId, s.lastId, false, (falsify clear s.importedClause).2, s.importedClause⟩

theorem newClause_spec {s : LratChecker} (hs : TableInOrder s) (hroom : s.numClauses < s.clauses.length)
    (himported : ∀ l ∈ s.importedClause, s.known l) :
    TableInOrder s.newClause ∧ s.newClause = { s with
      numClauses := s.numClauses + 1, clauses := s.newClause.clauses } ∧
      s.newClause.clauses.flatten.Perm (s.made :: s.clauses.flatten) := by
  have hslot : s.slot s.lastId < s.clauses.length := reduceHash_lt (by omega)
  have hclauses : s.newClause.clauses = Buckets.push s.clauses (s.slot s.lastId) s.made := by
    simp only [newClause, made, hs.checked]
  have hperm := Buckets.flatten_push hslot s.made
  have hclear : s.newClause.checkedLits = clear := by
    simp only [newClause, hs.checked, falsify_clear]
  have hmade : WellMade s s.made := ⟨rfl, rfl, falsify_taut, himported⟩
  refine ⟨⟨hclear, hs.marks, ?_, ?_, ?_, ?_, hs.garbage, ?_⟩, ?_, ?_⟩
  · rw [hclauses, Buckets.length_push]
    exact hs.placed.push hslot
  · rw [hclauses, Buckets.length_push]
    exact hs.size
  · rw [hclauses, hperm.length_eq, List.length_cons, ← hs.count]
    rfl
  · rw [hclauses, Buckets.length_push]
    exact hroom
  · intro c hc
    rw [hclauses, hperm.mem_iff, List.mem_cons] at hc
    rcases hc with rfl | hc
    · exact hmade.mono (Nat.le_refl _)
    · exact (hs.table c hc).mono (Nat.le_refl _)
  · exact congrArg (fun m => { s.newClause with checkedLits := m }) (hclear.trans hs.checked.symm)
  · rw [hclauses]
    exact hperm

/-- `insert` adds the imported clause to the table. -/
theorem insert_spec {s s' : LratChecker} (hs : TableInOrder s) (himported : ∀ l ∈ s.importedClause, s.known l)
    (h : insert.run s = (.ok (), s')) :
    TableInOrder s' ∧ s' = { s with numClauses := s.numClauses + 1, clauses := s'.clauses } ∧
      s'.clauses.flatten.Perm (s.made :: s.clauses.flatten) ∧ s.clauses.length ≤ s'.clauses.length := by
  rw [insert, run_modify_bind, run_read_bind, run_require_bind_ok] at h
  have hs' : s' = newClause (if s.numClauses = s.clauses.length then s.enlargeClauses else s) :=
    (congrArg Prod.snd h.2).symm
  by_cases hfull : s.numClauses = s.clauses.length
  · obtain ⟨horder, hsame, hperm, hroom⟩ := enlargeClauses_spec hs hfull
    rw [if_pos hfull] at hs'
    have hnew := newClause_spec horder (by rw [hsame]; exact hroom) (by rw [hsame]; exact himported)
    rw [← hs'] at hnew
    obtain ⟨horder', hsame', hperm'⟩ := hnew
    have hmade : s.enlargeClauses.made = s.made := by rw [hsame]; rfl
    refine ⟨horder', ?_, ?_, ?_⟩
    · rw [hsame', hsame]
    · rw [← hmade]
      exact hperm'.trans (hperm.cons _)
    · have hload := horder'.load
      have hcount : s'.numClauses = s.numClauses + 1 := by rw [hsame', hsame]
      omega
  · have hload := hs.load
    rw [if_neg hfull] at hs'
    have hnew := newClause_spec hs (by omega) himported
    rw [← hs'] at hnew
    obtain ⟨horder', hsame', hperm'⟩ := hnew
    refine ⟨horder', hsame', hperm', ?_⟩
    rw [hs', newClause]
    exact (Buckets.length_push ..).ge

/-! ## Importing and searching -/

/-- The state of a call once its clause is imported. -/
structure Imported (s : LratChecker) (c : List ℤ) (s₁ : LratChecker) : Prop where
  nonzero : ∀ l ∈ c, l ≠ 0
  room : ∃ n, s.sizeVars ≤ n ∧ (∀ l ∈ c, l.natAbs < n) ∧ s₁ = { s with sizeVars := n, importedClause := c }

theorem importClause_spec {s s₁ : LratChecker} (hs : TableAtRest s) {c : List ℤ}
    (h : (importClause c).run s = (.ok (), s₁)) : Imported s c s₁ := by
  obtain ⟨hzero, n, hle, hlt, heq⟩ := run_importClause_ok h
  rw [hs.imported, List.nil_append] at heq
  exact ⟨hzero, n, hle, hlt, heq⟩

theorem Imported.same {s s₁ : LratChecker} {c : List ℤ} (h : Imported s c s₁) (id id' : ℤ) :
    SameTable s { s₁ with lastId := id, currentId := id' } := by
  obtain ⟨n, hle, -, rfl⟩ := h.room
  exact ⟨rfl, rfl, rfl, rfl, rfl, rfl, hle⟩

theorem Imported.known {s s₁ : LratChecker} {c : List ℤ} (h : Imported s c s₁) :
    s₁.importedClause = c ∧ ∀ l ∈ c, s₁.known l := by
  obtain ⟨n, hle, hlt, rfl⟩ := h.room
  exact ⟨rfl, fun l hl => ⟨h.nonzero l hl, hlt l hl⟩⟩

theorem requireNew_spec {s s' : LratChecker} (hs : TableInOrder s) {id : ℤ}
    (h : (requireNew id).run s = (.ok (), s')) : s' = s ∧ ∀ d ∈ s.clauses.flatten, d.id ≠ id := by
  obtain ⟨d, s₁, hfind, hrest⟩ := run_bind_ok.mp h
  obtain ⟨rfl, -, -, hd⟩ := run_find_ok hfind
  cases d with
  | some d =>
    rw [Option.isNone_some, run_require_false] at hrest
    cases hrest
  | none =>
    refine ⟨?_, find_none hs hd.symm⟩
    rw [Option.isNone_none, run_require_true] at hrest
    exact (congrArg Prod.snd hrest).symm

/-- The guarded search for an identifier that must be new. -/
theorem guardNew_spec {s s' : LratChecker} (hs : TableInOrder s) {id : ℤ} {b : Bool}
    (h : (doIf (!s.clauses.isEmpty && b) (requireNew id)).run s = (.ok (), s')) :
    s' = s ∧ (b = true → ∀ d ∈ s.clauses.flatten, d.id ≠ id) := by
  cases hguard : !s.clauses.isEmpty && b with
  | true =>
    rw [hguard, run_doIf_true] at h
    obtain ⟨rfl, hnew⟩ := requireNew_spec hs h
    exact ⟨rfl, fun _ => hnew⟩
  | false =>
    rw [hguard, run_doIf_false] at h
    refine ⟨(congrArg Prod.snd h).symm, fun hb d hd => ?_⟩
    rw [hb, Bool.and_true, Bool.not_eq_false', List.isEmpty_iff] at hguard
    rw [hguard] at hd
    cases hd

/-- The shared part of deletion, weakening and finalisation. -/
theorem findImported_spec {s s' : LratChecker} (hs : TableAtRest s) {missing : String} {id : ℤ} {c : List ℤ}
    {d : LratCheckerClause} (h : (findImported missing id c).run s = (.ok d, s')) :
    (∀ l ∈ c, l ≠ 0) ∧ (∀ l ∈ d.literals, l ∈ c) ∧
      (∃ n, s.sizeVars ≤ n ∧ s' = { s with sizeVars := n, importedClause := c, lastId := id }) ∧
      Buckets.find s.clauses (s.slot id) (isClause id) = some d := by
  obtain ⟨_, s₁, himport, hrest⟩ := run_bind_ok.mp h
  have hi := importClause_spec hs himport
  obtain ⟨n, hle, -, heq⟩ := hi.room
  rw [run_modify_bind] at hrest
  obtain ⟨r, s₂, hfind, hcheck⟩ := run_bind_ok.mp hrest
  obtain ⟨hs₂, -, -, hr⟩ := run_find_ok hfind
  rw [run_read_bind] at hcheck
  cases r with
  | none => cases hcheck
  | some d' =>
    simp only [run_modify_bind, run_require_bind_ok] at hcheck
    obtain ⟨hall, hend⟩ := hcheck
    cases hend
    have himported : s₂.importedClause = c := by rw [hs₂]; exact hi.known.1
    have hmarks : s₂.marks = clear := by rw [hs₂, heq]; exact hs.marks
    have hclear : setMarks (setMarks s₂.marks s₂.importedClause true) s₂.importedClause false = clear := by
      rw [hmarks]
      exact setMarks_clear fun x hx => (setMarks_true.mp hx).resolve_right Bool.false_ne_true
    refine ⟨hi.nonzero, fun l hl => ?_, ⟨n, hle, ?_⟩, ?_⟩
    · have hl' := List.all_eq_true.mp hall l hl
      rw [hmarks, himported] at hl'
      exact (setMarks_true.mp hl').resolve_right Bool.false_ne_true
    · rw [hclear, ← hs.marks, hs₂, heq]
    · rw [heq] at hr
      exact hr.symm

/-! ## Adding clauses -/

/-- The end of both calls that add a clause. -/
theorem finish_spec {s s' : LratChecker} (hs : TableInOrder s) (hwaiting : 2 * s.numGarbage ≤ max s.clauses.length
    s.sizeVars) (himported : ∀ l ∈ s.importedClause, s.known l)
    (h : (insert >>= fun _ => modify fun s => { s with importedClause := [] } : LratM Unit).run s =
      (.ok (), s')) :
    TableAtRest s' ∧ s'.clauses.flatten.Perm (s.made :: s.clauses.flatten) ∧
      s' = { s with numClauses := s.numClauses + 1, clauses := s'.clauses, importedClause := [] } := by
  obtain ⟨_, s₁, hinsert, hend⟩ := run_bind_ok.mp h
  obtain ⟨horder, hsame, hperm, hlen⟩ := insert_spec hs himported hinsert
  have hs' : s' = { s₁ with importedClause := [] } := (congrArg Prod.snd hend).symm
  have hgarbage : s₁.numGarbage = s.numGarbage := by rw [hsame]
  have hvars : s₁.sizeVars = s.sizeVars := by rw [hsame]
  subst hs'
  refine ⟨⟨horder.same ⟨rfl, rfl, rfl, rfl, rfl, rfl, Nat.le_refl _⟩, rfl, ?_⟩, hperm, ?_⟩
  · change 2 * s₁.numGarbage ≤ max s₁.clauses.length s₁.sizeVars
    omega
  · rw [hsame]

/-- A clause has been added under an identifier. -/
structure Adds (s : LratChecker) (id : ℤ) (c : List ℤ) (s' : LratChecker) : Prop where
  kept : TableAtRest s'
  nonzero : ∀ l ∈ c, l ≠ 0
  clauses : ∃ n : LratCheckerClause, n.id = id ∧ n.literals = c ∧
    s'.clauses.flatten.Perm (n :: s.clauses.flatten)

theorem Adds.mem_table {s s' : LratChecker} {id : ℤ} {c : List ℤ} (h : Adds s id c s') {D : List ℤ} :
    D ∈ s'.table ↔ D = c ∨ D ∈ s.table := by
  obtain ⟨n, -, hn, hperm⟩ := h.clauses
  rw [table, (hperm.map _).mem_iff, List.map_cons, List.mem_cons, hn]
  rfl

theorem restoreClause_spec {s s' : LratChecker} {id : ℤ} {c : List ℤ}
    (h : (restoreClause id c).run s = (.ok (), s')) :
    s.clausesToReconstruct.lookup id = some (c.mergeSort (· ≤ ·)) ∧
      s' = { s with clausesToReconstruct := s.clausesToReconstruct.filter fun p => p.1 != id } := by
  rw [restoreClause, run_read_bind] at h
  cases hd : s.clausesToReconstruct.lookup id with
  | none =>
    rw [hd] at h
    cases h
  | some d =>
    rw [hd] at h
    simp only [run_require_bind_ok, decide_eq_true_eq] at h
    exact ⟨by rw [h.1], (congrArg Prod.snd h.2).symm⟩

/-- `add_original_clause`: a restored clause was saved, any other has a new identifier. -/
theorem addOriginalClause_spec {s s' : LratChecker} (hs : TableAtRest s) {id : ℤ} {c : List ℤ} {restore : Bool}
    (h : (addOriginalClause id c restore).run s = (.ok (), s')) :
    Adds s id c s' ∧
      (restore = true → s.clausesToReconstruct.lookup id = some (c.mergeSort (· ≤ ·)) ∧
        s'.clausesToReconstruct = s.clausesToReconstruct.filter fun p => p.1 != id) ∧
      (restore = false → s'.clausesToReconstruct = s.clausesToReconstruct ∧
        ∀ d ∈ s.clauses.flatten, d.id ≠ id) := by
  obtain ⟨_, s₀, hrestore, hrest⟩ := run_bind_ok.mp h
  have hstart : TableAtRest s₀ ∧ s₀.clauses = s.clauses ∧
      (restore = true → s.clausesToReconstruct.lookup id = some (c.mergeSort (· ≤ ·)) ∧
        s₀.clausesToReconstruct = s.clausesToReconstruct.filter fun p => p.1 != id) ∧
      (restore = false → s₀ = s) := by
    cases restore with
    | true =>
      rw [run_doIf_true] at hrestore
      obtain ⟨hsaved, rfl⟩ := restoreClause_spec hrestore
      exact ⟨hs.same ⟨rfl, rfl, rfl, rfl, rfl, rfl, Nat.le_refl _⟩ hs.imported, rfl,
        fun _ => ⟨hsaved, rfl⟩, by simp⟩
    | false =>
      obtain rfl : s₀ = s := (congrArg Prod.snd hrestore).symm
      exact ⟨hs, rfl, by simp, fun _ => rfl⟩
  obtain ⟨hs₀, hclauses, hyes, hno⟩ := hstart
  obtain ⟨_, s₁, himport, hrest⟩ := run_bind_ok.mp hrest
  have hi := importClause_spec hs₀ himport
  rw [run_modify_bind, run_modify_bind, run_read_bind] at hrest
  -- whichever identifier is current, the table is the one the call started with
  have hmid : ∃ id', (if !restore && decide (id = 1 + ({ s₁ with lastId := id } : LratChecker).currentId) then
      { s₁ with lastId := id, currentId := id } else { s₁ with lastId := id } : LratChecker) =
        { s₁ with lastId := id, currentId := id' } := by
    split
    · exact ⟨id, rfl⟩
    · exact ⟨s₁.currentId, rfl⟩
  obtain ⟨id', hmid⟩ := hmid
  rw [hmid] at hrest
  have hsame := hi.same id id'
  have horder := hs₀.toTableInOrder.same hsame
  obtain ⟨n, -, -, hs₁⟩ := hi.room
  obtain ⟨_, s₂, hguard, hend⟩ := run_bind_ok.mp hrest
  obtain ⟨rfl, hnew⟩ := guardNew_spec horder hguard
  obtain ⟨hatrest, hperm, hs'⟩ := finish_spec horder (hs₀.waiting_same hsame)
    (fun l hl => hi.known.2 l (hi.known.1 ▸ hl)) hend
  have hsaved : s'.clausesToReconstruct = s₀.clausesToReconstruct := by rw [hs', hs₁]
  rw [hsame.clauses, hclauses] at hperm hnew
  refine ⟨⟨hatrest, hi.nonzero, _, rfl, hi.known.1, hperm⟩, fun hr => ?_, fun hr => ?_⟩
  · exact ⟨(hyes hr).1, hsaved.trans (hyes hr).2⟩
  · exact ⟨hsaved.trans (by rw [hno hr]), hnew (by rw [hr]; rfl)⟩

/-- The state in which a derived clause is checked. -/
def considering (s : LratChecker) (id : ℤ) (c : List ℤ) : LratChecker :=
  { ((importClause c).run s).2 with lastId := id, currentId := id }

/-- The clause is derived by its chain. -/
def viaChain (s : LratChecker) (id : ℤ) (c chain : List ℤ) : Bool :=
  match ((chainDerives chain).run (s.considering id c)).1 with
  | .ok b => b
  | .error _ => false

/-- What `add_derived_clause` has established: the clause is true in every model of the table, or it is
blocked on the pivot. -/
inductive Derived (s : LratChecker) (id : ℤ) (c chain : List ℤ) : Prop
  | implied (hvia : viaChain s id c chain = true) (h : ∀ β, models β s.table = true → satisfies β c = true)
  | blocked (hvia : viaChain s id c chain = false) (l : ℤ) (hl : pivot chain c s.clauses.flatten = some l)
      (h : (∀ d ∈ s.clauses.flatten, chain.contains (-d.id) = true → d.literals.Nodup) →
        Blocked s.table c l)

theorem addDerivedClause_spec {s s' : LratChecker} (hs : TableAtRest s) {id : ℤ} {c chain : List ℤ}
    (h : (addDerivedClause id c chain).run s = (.ok (), s')) :
    Adds s id c s' ∧ s'.clausesToReconstruct = s.clausesToReconstruct ∧
      (∀ d ∈ s.clauses.flatten, d.id ≠ id) ∧ Derived s id c chain := by
  obtain ⟨_, s₁, himport, hrest⟩ := run_bind_ok.mp h
  have hi := importClause_spec hs himport
  have hmid : s.considering id c = { s₁ with lastId := id, currentId := id } := by
    rw [considering, himport]
  rw [run_modify_bind, run_read_bind, ← hmid] at hrest
  have hsame : SameTable s (s.considering id c) := hmid ▸ hi.same id id
  have horder := hs.toTableInOrder.same hsame
  obtain ⟨n, -, -, hs₁⟩ := hi.room
  have himported : (s.considering id c).importedClause = c := by rw [hmid]; exact hi.known.1
  have hknown : ∀ l ∈ (s.considering id c).importedClause, (s.considering id c).known l := by
    rw [hmid]
    exact fun l hl => hi.known.2 l (hi.known.1 ▸ hl)
  have hready := horder.ready hknown
  have htable : (s.considering id c).table = s.table := by rw [table, hsame.clauses, table]
  obtain ⟨_, s₂, hguard, hrest⟩ := run_bind_ok.mp hrest
  rw [← Bool.and_true (!(s.considering id c).clauses.isEmpty)] at hguard
  obtain ⟨rfl, hnew⟩ := guardNew_spec horder hguard
  obtain ⟨ok, s₃, hderives, hrest⟩ := run_bind_ok.mp hrest
  rw [run_read_bind, run_require_bind_ok] at hrest
  obtain ⟨rfl, hend⟩ := hrest
  obtain ⟨byChain, s₄, hchain, hblocked⟩ := run_bind_ok.mp hderives
  obtain ⟨rfl, himplied⟩ := chainDerives_sound hready hchain
  have hvia : viaChain s id c chain = byChain := by rw [viaChain, hchain]
  have hcheck : s₃ = s.considering id c ∧ Derived s id c chain := by
    cases byChain with
    | true =>
      refine ⟨(congrArg Prod.snd hblocked).symm, .implied hvia fun β hβ => ?_⟩
      rw [← htable] at hβ
      rw [← himported]
      exact himplied rfl β hβ
    | false =>
      have hb : (checkBlocked chain).run (s.considering id c) = (.ok true, s₃) := hblocked
      have hsound := checkBlocked_sound hready hb
      rw [himported, hsame.clauses, htable] at hsound
      obtain ⟨l, hl, hsound⟩ := hsound
      exact ⟨(checkBlocked_state hready hb).1,
        .blocked hvia l hl hsound⟩
  obtain ⟨rfl, hderived⟩ := hcheck
  obtain ⟨hatrest, hperm, hs'⟩ := finish_spec horder (hs.waiting_same hsame) hknown hend
  have hsaved : s'.clausesToReconstruct = s.clausesToReconstruct := by rw [hs', hmid, hs₁]
  rw [hsame.clauses] at hperm hnew
  have hid : (s.considering id c).made.id = id := by rw [hmid]; rfl
  exact ⟨⟨hatrest, hi.nonzero, _, hid, himported, hperm⟩, hsaved, hnew rfl, hderived⟩

/-! ## Deleting and saving clauses -/

theorem discard_spec {s : LratChecker} (hs : TableInOrder s) {id : ℤ} {d : LratCheckerClause}
    (hd : Buckets.find s.clauses (s.slot id) (isClause id) = some d) :
    TableInOrder (s.discard id d) ∧ s.clauses.flatten.Perm (d :: (s.discard id d).clauses.flatten) := by
  have hperm := Buckets.flatten_unlink hd
  have hlen := Buckets.length_unlink s.clauses (s.slot id) (isClause id)
  have hload := hs.load
  have hcount : s.numClauses - 1 = (s.discard id d).clauses.flatten.length := by
    rw [hs.count, hperm.length_eq]
    rfl
  refine ⟨⟨hs.checked, hs.marks, ?_, ?_, hcount, ?_, ?_, fun c hc => ?_⟩, hperm⟩
  · rw [discard, hlen]
    exact hs.placed.unlink (s.slot id) (isClause id)
  · rw [discard, hlen]
    exact hs.size
  · rw [discard, hlen]
    change s.numClauses - 1 ≤ s.clauses.length
    omega
  · change s.numGarbage + 1 = s.garbage.length + 1
    rw [hs.garbage]
  · exact (hs.table c (hperm.mem_iff.mpr (List.mem_cons_of_mem d hc))).mono (Nat.le_refl _)

/-- Collecting when enough garbage has piled up. -/
theorem collect_spec {s : LratChecker} (hs : TableInOrder s) (himported : s.importedClause = []) :
    TableAtRest (if max s.clauses.length s.sizeVars < 2 * s.numGarbage then s.collectGarbageClauses else s) := by
  split
  · have hnone : s.numGarbage - s.garbage.length = 0 := by rw [hs.garbage, Nat.sub_self]
    refine ⟨⟨hs.checked, hs.marks, hs.placed, hs.size, hs.count, hs.load, hnone,
      fun c hc => (hs.table c hc).mono (Nat.le_refl _)⟩, himported, ?_⟩
    change 2 * (s.numGarbage - s.garbage.length) ≤ _
    rw [hnone]
    exact Nat.zero_le _
  · next hfew => exact ⟨hs, himported, not_lt.mp hfew⟩

/-- A clause has been taken out of the table. -/
structure Deletes (s : LratChecker) (id : ℤ) (c : List ℤ) (s' : LratChecker) : Prop where
  kept : TableAtRest s'
  saved : s'.clausesToReconstruct = s.clausesToReconstruct
  clauses : ∃ d : LratCheckerClause, d.id = id ∧ (∀ l ∈ d.literals, l ∈ c) ∧
    s.clauses.flatten.Perm (d :: s'.clauses.flatten)

theorem Deletes.mem_table {s s' : LratChecker} {id : ℤ} {c : List ℤ} (h : Deletes s id c s') {D : List ℤ}
    (hD : D ∈ s'.table) : D ∈ s.table := by
  obtain ⟨d, -, -, hperm⟩ := h.clauses
  rw [table, (hperm.map _).mem_iff]
  exact List.mem_cons_of_mem _ hD

theorem deleteClause_spec {s s' : LratChecker} (hs : TableAtRest s) {id : ℤ} {c : List ℤ}
    (h : (deleteClause id c).run s = (.ok (), s')) : Deletes s id c s' := by
  obtain ⟨d, s₁, hfind, hrest⟩ := run_bind_ok.mp h
  obtain ⟨-, hsub, ⟨n, hle, rfl⟩, hd⟩ := findImported_spec hs hfind
  rw [run_modify_bind, run_modify_bind] at hrest
  have horder : TableInOrder { s with sizeVars := n, importedClause := c, lastId := id } :=
    hs.toTableInOrder.same ⟨rfl, rfl, rfl, rfl, rfl, rfl, hle⟩
  obtain ⟨horder', hperm⟩ := discard_spec horder hd
  generalize hs₂ : discard id d { s with sizeVars := n, importedClause := c, lastId := id } = s₂ at *
  -- the imported clause is cleared last, which the collection does not notice
  have hs' : s' = if max s₂.clauses.length s₂.sizeVars < 2 * s₂.numGarbage then
      ({ s₂ with importedClause := [] } : LratChecker).collectGarbageClauses
      else { s₂ with importedClause := [] } := by
    have hend := congrArg Prod.snd hrest
    rw [run_modify] at hend
    refine hend.symm.trans ?_
    split <;> rfl
  have hatrest := collect_spec (s := { s₂ with importedClause := [] })
    (horder'.same ⟨rfl, rfl, rfl, rfl, rfl, rfl, Nat.le_refl _⟩) rfl
  have hclauses : s'.clauses = s₂.clauses := by
    rw [hs']
    split <;> rfl
  have hsaved : s'.clausesToReconstruct = s₂.clausesToReconstruct := by
    rw [hs']
    split <;> rfl
  refine ⟨hs' ▸ hatrest, hsaved.trans (by rw [← hs₂]; rfl), d, (found_mem hd).2, hsub, ?_⟩
  rw [hclauses]
  exact hperm

/-- Finalising looks only. -/
theorem finalizeClause_spec {s s' : LratChecker} (hs : TableAtRest s) {id : ℤ} {c : List ℤ}
    (h : (finalizeClause id c).run s = (.ok (), s')) :
    TableAtRest s' ∧ s'.clausesToReconstruct = s.clausesToReconstruct ∧ s'.clauses = s.clauses := by
  rw [finalizeClause, run_modify_bind] at h
  have hs₀ : TableAtRest { s with numFinalized := s.numFinalized + 1 } :=
    hs.same ⟨rfl, rfl, rfl, rfl, rfl, rfl, Nat.le_refl _⟩ hs.imported
  obtain ⟨d, s₁, hfind, hrest⟩ := run_bind_ok.mp h
  obtain ⟨-, -, ⟨n, hle, rfl⟩, -⟩ := findImported_spec hs₀ hfind
  obtain rfl := (congrArg Prod.snd hrest : _ = s')
  exact ⟨hs.same ⟨rfl, rfl, rfl, rfl, rfl, rfl, hle⟩ rfl, rfl, rfl⟩

/-- Weakening saves a clause that a clause of the table is part of. -/
theorem weakenMinus_spec {s s' : LratChecker} (hs : TableAtRest s) {id : ℤ} {c : List ℤ}
    (h : (weakenMinus id c).run s = (.ok (), s')) :
    TableAtRest s' ∧ s'.clauses = s.clauses ∧ (∃ D ∈ s.table, ∀ l ∈ D, l ∈ c) ∧ s'.clausesToReconstruct =
      (id, c.mergeSort (· ≤ ·)) :: s.clausesToReconstruct.filter fun p => p.1 != id := by
  obtain ⟨d, s₁, hfind, hrest⟩ := run_bind_ok.mp h
  obtain ⟨-, hsub, ⟨n, hle, rfl⟩, hd⟩ := findImported_spec hs hfind
  rw [run_modify_bind] at hrest
  obtain rfl := (congrArg Prod.snd hrest : _ = s')
  exact ⟨hs.same ⟨rfl, rfl, rfl, rfl, rfl, rfl, hle⟩ rfl, rfl,
    ⟨d.literals, List.mem_map_of_mem (found_mem hd).1, hsub⟩, rfl⟩

/-! ## Assumptions and conclusions -/

/-- An assumption clause is derived and deleted again. -/
theorem addAssumptionClause_spec {s s' : LratChecker} (hs : TableAtRest s) {id : ℤ} {c chain : List ℤ}
    (h : (addAssumptionClause id c chain).run s = (.ok (), s')) :
    TableAtRest s' ∧ s'.clausesToReconstruct = s.clausesToReconstruct ∧
      s.clauses.flatten.Perm s'.clauses.flatten ∧ (∀ d ∈ s.clauses.flatten, d.id ≠ id) ∧
      Derived s id c chain := by
  rw [addAssumptionClause, run_read_bind, run_require_bind_ok] at h
  obtain ⟨-, hrest⟩ := h
  obtain ⟨_, s₁, hderived, hrest⟩ := run_bind_ok.mp hrest
  obtain ⟨_, s₂, hdelete, hend⟩ := run_bind_ok.mp hrest
  obtain ⟨hadds, hsaved, hnew, hsound⟩ := addDerivedClause_spec hs hderived
  have hdel := deleteClause_spec hadds.kept hdelete
  obtain rfl := (congrArg Prod.snd hend : _ = s')
  have hatrest : TableAtRest { s₂ with assumptionClauses := s₂.assumptionClauses ++ [id] } :=
    hdel.kept.same ⟨rfl, rfl, rfl, rfl, rfl, rfl, Nat.le_refl _⟩ hdel.kept.imported
  refine ⟨hatrest, hdel.saved.trans hsaved, ?_, hnew, hsound⟩
  -- the clause deleted is the clause added, since no other has its identifier
  obtain ⟨n, hn, -, hadded⟩ := hadds.clauses
  obtain ⟨d, hd, -, hdeleted⟩ := hdel.clauses
  have hperm := hadded.symm.trans hdeleted
  have hmem : d ∈ n :: s.clauses.flatten := hperm.mem_iff.mpr (List.mem_cons_self ..)
  obtain rfl : d = n := (List.mem_cons.mp hmem).resolve_right fun hin => hnew d hin hd
  exact hperm.cons_inv

/-- A conclusion only looks, and a conflict is the empty clause. -/
theorem concludeUnsat_spec {s s' : LratChecker} {conclusion : ConclusionType} {ids : List ℤ}
    (h : (concludeUnsat conclusion ids).run s = (.ok (), s')) :
    s' = { s with concluded := true } ∧ (conclusion = .conflict → [] ∈ s.table) := by
  rw [concludeUnsat, run_read_bind, run_require_bind_ok, run_modify_bind] at h
  obtain ⟨-, h⟩ := h
  cases conclusion with
  | conflict =>
    simp only [run_require_bind_ok] at h
    obtain ⟨d, s₁, hfind, hend⟩ := run_bind_ok.mp h.2
    obtain ⟨rfl, -, -, hd⟩ := run_find_ok hfind
    obtain ⟨hempty, rfl⟩ := run_require_ok.mp hend
    obtain ⟨c, rfl, hc⟩ : ∃ c, d = some c ∧ c.literals.isEmpty = true := by
      cases d with
      | none => cases hempty
      | some c => exact ⟨c, rfl, hempty⟩
    refine ⟨rfl, fun _ => ?_⟩
    rw [← List.isEmpty_iff.mp hc]
    exact List.mem_map_of_mem (found_mem hd.symm).1
  | assumptions =>
    simp only [run_require_bind_ok, run_require_ok] at h
    exact ⟨h.2.2, by simp⟩
  | constraint =>
    simp only [run_require_bind_ok, run_require_ok] at h
    exact ⟨h.2.2, by simp⟩

/-! ## One call -/

/-- One call, as a machine. -/
def step (s : LratChecker) (e : Event) : Except LratFailure Unit × LratChecker := (call e).run s

/-- Calls that leave the clauses alone. -/
def idle : Event → Prop
  | .original .. => False
  | .derived .. => False
  | .assumptionClause .. => False
  | .delete .. => False
  | .weakenMinus .. => False
  | _ => True

/-- What a call that returned did. -/
inductive Did (s s' : LratChecker) : Event → Prop
  | nothing {e : Event} (he : idle e) (hclauses : s'.clauses = s.clauses)
      (hsaved : s'.clausesToReconstruct = s.clausesToReconstruct) : Did s s' e
  | original {id : ℤ} {c : List ℤ} (hadds : Adds s id c s')
      (hsaved : s'.clausesToReconstruct = s.clausesToReconstruct)
      (hnew : ∀ d ∈ s.clauses.flatten, d.id ≠ id) : Did s s' (.original id c false)
  | restored {id : ℤ} {c : List ℤ} (hadds : Adds s id c s')
      (hlookup : s.clausesToReconstruct.lookup id = some (c.mergeSort (· ≤ ·)))
      (hsaved : s'.clausesToReconstruct = s.clausesToReconstruct.filter fun p => p.1 != id) :
      Did s s' (.original id c true)
  | derived {id : ℤ} {c chain : List ℤ} (hadds : Adds s id c s')
      (hsaved : s'.clausesToReconstruct = s.clausesToReconstruct)
      (hnew : ∀ d ∈ s.clauses.flatten, d.id ≠ id) (hderived : Derived s id c chain) :
      Did s s' (.derived id c chain)
  | assumed {id : ℤ} {c chain : List ℤ} (hperm : s.clauses.flatten.Perm s'.clauses.flatten)
      (hsaved : s'.clausesToReconstruct = s.clausesToReconstruct)
      (hnew : ∀ d ∈ s.clauses.flatten, d.id ≠ id) (hderived : Derived s id c chain) :
      Did s s' (.assumptionClause id c chain)
  | deleted {id : ℤ} {c : List ℤ} (hdeletes : Deletes s id c s') : Did s s' (.delete id c)
  | weakened {id : ℤ} {c : List ℤ} (hclauses : s'.clauses = s.clauses)
      (hpart : ∃ D ∈ s.table, ∀ l ∈ D, l ∈ c) (hsaved : s'.clausesToReconstruct =
        (id, c.mergeSort (· ≤ ·)) :: s.clausesToReconstruct.filter fun p => p.1 != id) :
      Did s s' (.weakenMinus id c)

theorem step_did {s : LratChecker} (hs : TableAtRest s) {e : Event} (h : (step s e).1 = .ok ()) :
    TableAtRest (step s e).2 ∧ Did s (step s e).2 e := by
  have hrun : (call e).run s = (.ok (), (step s e).2) := Prod.ext h rfl
  generalize (step s e).2 = s' at hrun
  -- a call that writes other fields only
  have hidle : idle e → SameTable s s' → s'.importedClause = s.importedClause →
      s'.clausesToReconstruct = s.clausesToReconstruct → TableAtRest s' ∧ Did s s' e :=
    fun he hsame himp hsaved =>
      ⟨hs.same hsame (himp.trans hs.imported), .nothing he hsame.clauses hsaved⟩
  cases e with
  | beginProof id =>
    obtain rfl := (congrArg Prod.snd hrun : _ = s')
    exact hidle trivial ⟨rfl, rfl, rfl, rfl, rfl, rfl, Nat.le_refl _⟩ rfl rfl
  | original id c restore =>
    obtain ⟨hadds, hyes, hno⟩ := addOriginalClause_spec hs hrun
    cases restore with
    | true => exact ⟨hadds.kept, .restored hadds (hyes rfl).1 (hyes rfl).2⟩
    | false => exact ⟨hadds.kept, .original hadds (hno rfl).1 (hno rfl).2⟩
  | derived id c chain =>
    obtain ⟨hadds, hsaved, hnew, hderived⟩ := addDerivedClause_spec hs hrun
    exact ⟨hadds.kept, .derived hadds hsaved hnew hderived⟩
  | assumptionClause id c chain =>
    obtain ⟨hatrest, hsaved, hperm, hnew, hderived⟩ := addAssumptionClause_spec hs hrun
    exact ⟨hatrest, .assumed hperm hsaved hnew hderived⟩
  | assumption a =>
    obtain rfl := (congrArg Prod.snd hrun : _ = s')
    exact hidle trivial ⟨rfl, rfl, rfl, rfl, rfl, rfl, Nat.le_refl _⟩ rfl rfl
  | constraint c =>
    obtain rfl := (congrArg Prod.snd hrun : _ = s')
    exact hidle trivial ⟨rfl, rfl, rfl, rfl, rfl, rfl, Nat.le_refl _⟩ rfl rfl
  | resetAssumptions =>
    obtain rfl := (congrArg Prod.snd hrun : _ = s')
    exact hidle trivial ⟨rfl, rfl, rfl, rfl, rfl, rfl, Nat.le_refl _⟩ rfl rfl
  | conclude conclusion ids =>
    obtain rfl := (concludeUnsat_spec hrun).1
    exact hidle trivial ⟨rfl, rfl, rfl, rfl, rfl, rfl, Nat.le_refl _⟩ rfl rfl
  | delete id c =>
    have hdeletes := deleteClause_spec hs hrun
    exact ⟨hdeletes.kept, .deleted hdeletes⟩
  | weakenMinus id c =>
    obtain ⟨hatrest, hclauses, hpart, hsaved⟩ := weakenMinus_spec hs hrun
    exact ⟨hatrest, .weakened hclauses hpart hsaved⟩
  | finalize id c =>
    obtain ⟨hatrest, hsaved, hclauses⟩ := finalizeClause_spec hs hrun
    exact ⟨hatrest, .nothing trivial hclauses hsaved⟩
  | reportStatus =>
    have hend : (modify (fun s => { s with numFinalized := 0 }) : LratM Unit).run s = (.ok (), s') :=
      (run_require_bind_ok.mp hrun).2
    obtain rfl := (congrArg Prod.snd hend : _ = s')
    exact hidle trivial ⟨rfl, rfl, rfl, rfl, rfl, rfl, Nat.le_refl _⟩ rfl rfl

end Zusat.LratChecker
