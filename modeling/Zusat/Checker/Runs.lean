import Zusat.Foundations.Redundancy
import Zusat.Foundations.Runs
import Zusat.Checker.Deletions

/-! # Runs of the checker

A run is a sequence of calls that all returned. After it a derived clause is judged by plain unit propagation over
the formula of the state, and a solver that deletes only clauses it has added is refused nothing else. A run is
sound when every derived clause that unit propagation does not refute is blocked in the whole formula; the check
for blocked clauses looks at the table only, which is not enough. -/

namespace Zusat.Checker
open Foundations Foundations.Prog
open LratChecker (clauseText)
set_option autoImplicit false

variable {s s' : Checker} {e : Call} {c : List ℤ} {id l : ℤ} {α : Assignment} {A : ℕ → Prop} {F : List (List ℤ)}
  {ks : Multiset Key}

/-! ## Calls of the solver -/

/-- The solver numbers its clauses from one on and has no literal zero. -/
def Call.Proper : Call → Prop
  | .original id c | .derived id c | .delete id c | .assumption id c => 0 < id ∧ (0 : ℤ) ∉ c

/-- The original clause of a call. -/
def given : Call → List (List ℤ)
  | .original _ c => [c]
  | _ => []

/-- The clause a call wants to be checked. -/
def derivation : Call → List (List ℤ)
  | .derived _ c | .assumption _ c => [c]
  | _ => []

def originals (es : List Call) : List (List ℤ) := es.flatMap given

/-- One call. -/
def step (s : Checker) (e : Call) : Except LratFailure Unit × Checker := (call e).run s

/-- Every call of the run returns. -/
def Accepted (s : Checker) (es : List Call) : Prop := Every step (fun _ _ r => r = .ok ()) s es

/-- What a call makes of the keys the table should hold. -/
def keep (ks : Multiset Key) : Call → Multiset Key
  | .original id c | .derived id c => keyOf id c ::ₘ ks
  | .delete id c => ks.erase (keyOf id c)
  | .assumption _ _ => ks

/-! ## One step -/

theorem clauseAt_new (a : ℕ) : new.clauseAt a = none := by simp [clauseAt, new]

theorem rooted_new : Rooted new := by
  refine ⟨⟨?_, ?_, ?_, ?_⟩, ⟨?_, ?_, List.nodup_nil, ?_⟩, ?_, rfl⟩
  · intro a c hc
    rw [clauseAt_new] at hc
    cases hc
  · intro l w hw
    cases hw
  · exact fun l => List.nodup_nil
  · intro a c hc
    rw [clauseAt_new] at hc
    cases hc
  · exact fun l => rfl
  · intro l hl
    cases hl
  · intro l hl
    cases hl
  · intro l hl
    cases hl

theorem tabled_new : Tabled new := by
  refine ⟨List.nodup_nil, fun a => ⟨?_, ?_⟩, ?_, rfl, le_rfl, rfl⟩
  · rintro ⟨c, hc⟩
    rw [clauseAt_new] at hc
    cases hc
  · intro ha
    cases ha
  · intro a c hc
    rw [clauseAt_new] at hc
    cases hc

theorem idle_new : Idle new := ⟨⟨rooted_new, tabled_new, rfl, rfl⟩, rfl, rfl⟩

theorem recalls_new : Recalls new 0 := by
  refine .inr ⟨fun i a ha => ?_, Multiset.zero_le _⟩
  cases ha

/-- A checker that has given up does nothing. -/
theorem step_inconsistent (h : s.inconsistent = true) (e : Call) : step s e = (.ok (), s) := by
  have hadd : ∀ id c, (addDerivedClause id c).run s = (.ok (), s) := by
    intro id c
    rw [addDerivedClause, run_read_bind, h]
    rfl
  have hdelete : ∀ id c, (deleteClause id c).run s = (.ok (), s) := by
    intro id c
    rw [deleteClause, run_read_bind, h]
    rfl
  cases e with
  | original id c =>
    show (addOriginalClause id c).run s = _
    rw [addOriginalClause, run_read_bind, h]
    rfl
  | derived id c => exact hadd id c
  | delete id c => exact hdelete id c
  | assumption id c =>
    show (addAssumptionClause id c).run s = _
    rw [addAssumptionClause, run_bind, hadd, andThen_ok, hdelete]

/-- The call returns in order: what agreed with the checker and satisfies the clause still agrees, and the table
holds what it should. -/
structure Returns (s : Checker) (ks : Multiset Key) (e : Call) (s' : Checker) : Prop where
  run : step s e = (.ok (), s')
  resting : Resting s'
  agrees : ∀ α, Agrees α s → (∀ c ∈ given e ++ derivation e, satisfies α c = true) → Agrees α s'
  recalls : Recalls s' (keep ks e)

/-- The clause fails both checks, and the call ends in the message that says so. -/
structure Fails (s : Checker) (e : Call) (c : List ℤ) : Prop where
  mem : c ∈ derivation e
  checks : ¬(Rup s.formula c ∨ BlockedIn s c)
  message : (step s e).1 = .error (.fatal ("failed to check derived clause:\n" ++ clauseText c))

theorem deleteClause_cases (h : Resting s) (hks : Recalls s ks) (hc : (0 : ℤ) ∉ c) (hid : 0 < id) :
    (∃ s', (deleteClause id c).run s = (.ok (), s') ∧ Resting s' ∧ (∀ α, Agrees α s → Agrees α s') ∧
      Recalls s' (ks.erase (keyOf id c))) ∨
    (keyOf id c ∉ ks ∧ ((deleteClause id c).run s).1 ≠ .ok ()) := by
  by_cases hgiven : s.inconsistent = true
  · exact .inl ⟨s, step_inconsistent hgiven (.delete id c), .inl hgiven, fun α hα => hα, .inl hgiven⟩
  · rcases run_deleteClause (h.resolve_left hgiven) hc hid with ⟨s', hrun, hrest, hagrees, htaken⟩ |
      ⟨herror, hnone⟩
    · exact .inl ⟨s', hrun, hrest, hagrees, htaken ks (hks.resolve_left hgiven)⟩
    · refine .inr ⟨hnone ks (hks.resolve_left hgiven), fun hok => ?_⟩
      rcases herror with hfatal | ⟨-, hdiverges⟩
      · cases hfatal.symm.trans hok
      · cases hdiverges.symm.trans hok

theorem addDerivedClause_cases (h : Resting s) (hks : Recalls s ks) (hc : (0 : ℤ) ∉ c) (hid : 0 < id) :
    (∃ s', (addDerivedClause id c).run s = (.ok (), s') ∧ Resting s' ∧
      (∀ α, Agrees α s → satisfies α c = true → Agrees α s') ∧ Recalls s' (keyOf id c ::ₘ ks)) ∨
    (¬(Rup s.formula c ∨ BlockedIn s c) ∧ ((addDerivedClause id c).run s).1 =
      .error (.fatal ("failed to check derived clause:\n" ++ clauseText c))) := by
  cases h with
  | inl h => exact .inl ⟨s, step_inconsistent h (.derived id c), .inl h, fun α hα _ => hα, .inl h⟩
  | inr h =>
    obtain ⟨haccepts, hrejects⟩ := run_addDerivedClause h hc hid
    by_cases hok : Rup s.formula c ∨ BlockedIn s c
    · obtain ⟨s', hrun, hrest, hagrees, hadds⟩ := haccepts hok
      exact .inl ⟨s', hrun, hrest, hagrees, hadds ks hks⟩
    · exact .inr ⟨hok, hrejects hok⟩

/-- A call returns, or its clause fails the checks, or it deletes a clause the table need not hold. -/
theorem step_cases (h : Resting s) (hks : Recalls s ks) (he : e.Proper) :
    (∃ s', Returns s ks e s') ∨ (∃ c, Fails s e c) ∨
      ∃ id c, e = .delete id c ∧ keyOf id c ∉ ks ∧ (step s e).1 ≠ .ok () := by
  cases e with
  | original id c =>
    obtain ⟨s', hrun, hrest, hagrees, hadds⟩ := run_addOriginalClause h he.2 he.1
    exact .inl ⟨s', hrun, hrest, fun α hα hsat => hagrees α hα (hsat c (by simp [given])), hadds ks hks⟩
  | derived id c =>
    rcases addDerivedClause_cases h hks he.2 he.1 with ⟨s', hrun, hrest, hagrees, hadds⟩ | ⟨hnot, hmessage⟩
    · refine .inl ⟨s', hrun, hrest, fun α hα hsat => hagrees α hα (hsat c ?_), hadds⟩
      simp [given, derivation]
    · exact .inr (.inl ⟨c, List.mem_cons_self, hnot, hmessage⟩)
  | delete id c =>
    rcases deleteClause_cases h hks he.2 he.1 with ⟨s', hrun, hrest, hagrees, htaken⟩ | hnone
    · exact .inl ⟨s', hrun, hrest, fun α hα _ => hagrees α hα, htaken⟩
    · exact .inr (.inr ⟨id, c, rfl, hnone⟩)
  | assumption id c =>
    have hbind : step s (.assumption id c) =
        andThen ((addDerivedClause id c).run s) fun _ => deleteClause id c := rfl
    rcases addDerivedClause_cases h hks he.2 he.1 with ⟨s₁, hadd, hrest₁, hagrees₁, hadds⟩ | ⟨hnot, hmessage⟩
    · rw [hadd, andThen_ok] at hbind
      -- the clause has just been added, so it is found
      rcases deleteClause_cases hrest₁ hadds he.2 he.1 with ⟨s₂, hdelete, hrest₂, hagrees₂, htaken⟩ | hnone
      · rw [Multiset.erase_cons_head] at htaken
        refine .inl ⟨s₂, hbind.trans hdelete, hrest₂, fun α hα hsat => hagrees₂ α (hagrees₁ α hα ?_), htaken⟩
        exact hsat c (by simp [given, derivation])
      · exact absurd (Multiset.mem_cons_self _ _) hnone.1
    · refine .inr (.inl ⟨c, List.mem_cons_self, hnot, ?_⟩)
      rcases hr : (addDerivedClause id c).run s with ⟨r, s₁⟩
      rw [hr] at hmessage hbind
      obtain rfl : r = _ := hmessage
      rw [hbind, andThen_error]

/-! ## What every run keeps -/

theorem step_returns (h : Resting s) (hks : Recalls s ks) (he : e.Proper) (hok : (step s e).1 = .ok ()) :
    ∃ s', Returns s ks e s' := by
  rcases step_cases h hks he with hreturns | ⟨c, hfails⟩ | ⟨id, c, -, -, hnot⟩
  · exact hreturns
  · cases hfails.message.symm.trans hok
  · exact absurd hok hnot

theorem step_keeps (h : Resting s) (hks : Recalls s ks) (he : e.Proper) (hok : (step s e).1 = .ok ()) :
    Resting (step s e).2 ∧ Recalls (step s e).2 (keep ks e) := by
  obtain ⟨s', hreturns⟩ := step_returns h hks he hok
  rw [hreturns.run]
  exact ⟨hreturns.resting, hreturns.recalls⟩

theorem run_keeps {es : List Call} (hes : ∀ e ∈ es, e.Proper) (h : Resting s) (hks : Recalls s ks)
    (hok : Accepted s es) : Resting (run step s es) ∧ Recalls (run step s es) (es.foldl keep ks) := by
  induction es generalizing s ks with
  | nil => exact ⟨h, hks⟩
  | cons e es ih =>
    obtain ⟨hnext, hkeeps⟩ := step_keeps h hks (hes e List.mem_cons_self) hok.1
    exact ih (fun d hd => hes d (List.mem_cons_of_mem e hd)) hnext hkeeps hok.2

theorem kept_after {es : List Call} (hes : ∀ e ∈ es, e.Proper) (hok : Accepted new es) :
    Resting (run step new es) ∧ Recalls (run step new es) (es.foldl keep 0) :=
  run_keeps hes (.inr idle_new) recalls_new hok

/-! ## Deletions -/

/-- The clauses added and not deleted since, as sets of literals with their identifiers. -/
def aliveAfter (m : Multiset (ℤ × Finset ℤ)) : Call → Multiset (ℤ × Finset ℤ)
  | .original id c | .derived id c => (id, c.toFinset) ::ₘ m
  | .delete id c => m.erase (id, c.toFinset)
  | .assumption _ _ => m

/-- A deletion is of a clause that has been added and not deleted since. -/
def Allowed (m : Multiset (ℤ × Finset ℤ)) : Call → Prop
  | .delete id c => (id, c.toFinset) ∈ m
  | _ => True

def Disciplined (m : Multiset (ℤ × Finset ℤ)) : List Call → Prop
  | [] => True
  | e :: es => Allowed m e ∧ Disciplined (aliveAfter m e) es

/-- The key of a clause that is alive. -/
def hashed (k : ℤ × Finset ℤ) : Key := (LratChecker.computeHash k.1, k.2)

theorem keep_hashed {m : Multiset (ℤ × Finset ℤ)} (h : Allowed m e) :
    keep (m.map hashed) e = (aliveAfter m e).map hashed := by
  cases e with
  | original id c => exact (Multiset.map_cons hashed (id, c.toFinset) m).symm
  | derived id c => exact (Multiset.map_cons hashed (id, c.toFinset) m).symm
  | delete id c => exact (Multiset.map_erase_of_mem hashed m h).symm
  | assumption id c => rfl

theorem foldl_keep {es : List Call} {m : Multiset (ℤ × Finset ℤ)} (h : Disciplined m (es ++ [e])) :
    es.foldl keep (m.map hashed) = (es.foldl aliveAfter m).map hashed ∧ Allowed (es.foldl aliveAfter m) e := by
  induction es generalizing m with
  | nil => exact ⟨rfl, h.1⟩
  | cons d es ih =>
    rw [List.foldl_cons, List.foldl_cons, keep_hashed h.1]
    exact ih h.2

/-- A solver that deletes only clauses it has added and not deleted since is refused nothing but derived and
assumption clauses that fail the checks, whatever the checker has dropped, assigned or collected in between. -/
theorem only_derived_refused {es : List Call} (hes : ∀ d ∈ es ++ [e], d.Proper)
    (hdisciplined : Disciplined 0 (es ++ [e])) (hok : Accepted new es) :
    (step (run step new es) e).1 = .ok () ∨ ∃ c, Fails (run step new es) e c := by
  obtain ⟨hkept, hallowed⟩ := foldl_keep hdisciplined
  rw [Multiset.map_zero] at hkept
  obtain ⟨hrest, hrecalls⟩ := kept_after (fun d hd => hes d (List.mem_append_left _ hd)) hok
  rw [hkept] at hrecalls
  have he : e.Proper := hes e (List.mem_append_right _ List.mem_cons_self)
  rcases step_cases hrest hrecalls he with ⟨s', hreturns⟩ | hfails | ⟨id, c, rfl, hnone, -⟩
  · exact .inl (congrArg Prod.fst hreturns.run)
  · exact .inr hfails
  · exact absurd (Multiset.mem_map_of_mem hashed hallowed) hnone

/-- A clause is deleted whose literals come in another order, after a unit has made the other one true. -/
theorem only_derived_refused_reordered :
    (step (run step new [.original 1 [1, 2, 3], .original 2 [-1, 2, 3], .original 4 [1, -3], .original 5 [-3, 2],
      .delete 4 [1, -3]]) (.delete 2 [3, 2, -1])).1 = .ok () := by
  have hes : ∀ d ∈ [Call.original 1 [1, 2, 3], .original 2 [-1, 2, 3], .original 4 [1, -3], .original 5 [-3, 2],
      .delete 4 [1, -3]] ++ [.delete 2 [3, 2, -1]], d.Proper := by
    intro e he
    simp only [List.cons_append, List.nil_append, List.mem_cons, List.not_mem_nil, or_false] at he
    rcases he with rfl | rfl | rfl | rfl | rfl | rfl <;> exact ⟨by decide, by decide⟩
  have hdisciplined : Disciplined 0 ([Call.original 1 [1, 2, 3], .original 2 [-1, 2, 3], .original 4 [1, -3],
      .original 5 [-3, 2], .delete 4 [1, -3]] ++ [.delete 2 [3, 2, -1]]) := by
    refine ⟨trivial, trivial, trivial, trivial, ?_, ?_, trivial⟩
    · show ((4 : ℤ), [1, -3].toFinset) ∈ _
      decide
    · show ((2 : ℤ), [3, 2, -1].toFinset) ∈ _
      decide
  have hok : Accepted new [.original 1 [1, 2, 3], .original 2 [-1, 2, 3], .original 4 [1, -3],
      .original 5 [-3, 2], .delete 4 [1, -3]] := by
    refine ⟨?_, ?_, ?_, ?_, ?_, trivial⟩ <;> decide +kernel
  refine (only_derived_refused hes hdisciplined hok).resolve_right ?_
  rintro ⟨c, hfails⟩
  cases hfails.mem

/-! ## Plain unit propagation -/

/-- After every run the watched literals, the assigned units and the clauses taken out of the table make no
difference: a derived clause is judged by plain unit propagation over the formula and by the blocked literals of
the table. -/
theorem derived_accepted_iff {es : List Call} (hes : ∀ e ∈ es, e.Proper) (hok : Accepted new es)
    (hconsistent : (run step new es).inconsistent = false) (hid : 0 < id) (hc : (0 : ℤ) ∉ c) :
    ((step (run step new es) (.derived id c)).1 = .ok () ↔
        Rup (run step new es).formula c ∨ BlockedIn (run step new es) c) ∧
      ((step (run step new es) (.derived id c)).1 ≠ .ok () → (step (run step new es) (.derived id c)).1 =
        .error (.fatal ("failed to check derived clause:\n" ++ clauseText c))) := by
  have hidle : Idle (run step new es) := by
    refine (kept_after hes hok).1.resolve_left fun htrue => ?_
    rw [hconsistent] at htrue
    cases htrue
  obtain ⟨haccepts, hrejects⟩ := run_addDerivedClause hidle hc hid
  have hiff : (step (run step new es) (.derived id c)).1 = .ok () ↔
      Rup (run step new es).formula c ∨ BlockedIn (run step new es) c := by
    constructor
    · intro hreturn
      by_contra hnot
      have herror := (hrejects hnot).symm.trans hreturn
      cases herror
    · intro hpasses
      obtain ⟨s', hrun, -⟩ := haccepts hpasses
      exact congrArg Prod.fst hrun
  exact ⟨hiff, fun hne => hrejects fun hpasses => hne (hiff.mpr hpasses)⟩

/-- Two clauses and their resolvent. -/
theorem derived_accepted_iff_resolvent :
    (Rup (run step new [.original 1 [1, 2], .original 2 [-1, 2]]).formula [2] ∨
        BlockedIn (run step new [.original 1 [1, 2], .original 2 [-1, 2]]) [2]) ∧
      ¬(Rup (run step new [.original 1 [1, 2], .original 2 [-1, 2]]).formula [1] ∨
        BlockedIn (run step new [.original 1 [1, 2], .original 2 [-1, 2]]) [1]) := by
  have hes : ∀ e ∈ [Call.original 1 [1, 2], .original 2 [-1, 2]], e.Proper := by
    intro e he
    simp only [List.mem_cons, List.not_mem_nil, or_false] at he
    rcases he with rfl | rfl <;> exact ⟨by decide, by decide⟩
  have hok : Accepted new [.original 1 [1, 2], .original 2 [-1, 2]] := by
    refine ⟨?_, ?_, trivial⟩ <;> decide +kernel
  have hresolvent := @derived_accepted_iff [2] 3 _ hes hok (by decide +kernel) (by decide) (by decide)
  have hother := @derived_accepted_iff [1] 3 _ hes hok (by decide +kernel) (by decide) (by decide)
  refine ⟨hresolvent.1.mp (by decide +kernel), fun hpasses => ?_⟩
  have hreturn := hother.1.mpr hpasses
  revert hreturn
  decide +kernel

/-! ## Soundness -/

theorem fits_iff : Fits α s ↔ models α s.formula = true := by
  refine ⟨Fits.models_formula, fun h => ⟨fun {a c} hc hheed => ?_, fun l hl => ?_⟩⟩
  · exact models_iff.mp h c.literals (mem_formula.mpr (.inl ⟨a, c, hc, hheed, rfl⟩))
  · have hunit := models_iff.mp h [l] (mem_formula.mpr (.inr ⟨l, hl, rfl⟩))
    obtain ⟨x, hx, htrue⟩ := satisfies_iff.mp hunit
    rwa [List.mem_singleton.mp hx] at htrue

/-- Every clause of the formula with the negation of the literal is true or clashes with the clause in another
literal. -/
structure BlockedOn (s : Checker) (c : List ℤ) (l : ℤ) : Prop where
  mem : l ∈ c
  clash : ∀ d ∈ s.formula, -l ∈ d → ∃ x ∈ d, x ≠ -l ∧ (x ∈ s.trail ∨ -x ∈ c)

theorem BlockedOn.redundant (h : BlockedOn s c l) (hs : Rooted s) (hl : l ≠ 0) : Redundant s.formula c [l] := by
  have hblocked : Blocked s.formula (c ++ negations s.trail) l := by
    refine ⟨List.mem_append_left _ h.mem, fun d hd hneg => ?_⟩
    obtain ⟨x, hx, hne, hclash⟩ := h.clash d hd hneg
    refine ⟨x, hx, hne, List.mem_append.mpr ?_⟩
    cases hclash with
    | inl htrail => exact .inr (mem_negations.mpr (by rwa [Int.neg_neg]))
    | inr hmem => exact .inl hmem
  intro α hα hfalse
  have hfit := fits_iff.mpr hα
  -- the negations of the trail are false like the clause
  have hlonger : satisfies α (c ++ negations s.trail) = false := by
    cases hsat : satisfies α (c ++ negations s.trail) with
    | false => rfl
    | true =>
      obtain ⟨x, hx, htrue⟩ := satisfies_iff.mp hsat
      cases List.mem_append.mp hx with
      | inl hx =>
        rw [satisfies_iff.mpr ⟨x, hx, htrue⟩] at hfalse
        cases hfalse
      | inr hx =>
        rw [hfit.false_of_neg hs.assigned (mem_negations.mp hx)] at htrue
        cases htrue
  have hboth := hblocked.redundant (fun d hd _ => hs.formula_ne_zero d hd) hl α hα hlonger
  refine models_iff.mpr fun d hd => ?_
  rcases List.mem_cons.mp hd with rfl | hd
  · exact satisfies_iff.mpr ⟨l, h.mem, holds_makeTrue hl⟩
  · exact models_iff.mp hboth d (List.mem_cons_of_mem _ hd)

/-- What the checker does not check: an original clause mentions no auxiliary variable, and a derived clause that
propagation does not refute is blocked on one in the whole formula. -/
def Careful (A : ℕ → Prop) (s : Checker) (e : Call) : Prop :=
  (∀ c ∈ given e, ∀ l ∈ c, ¬A l.natAbs) ∧
    ∀ c ∈ derivation e, Rup s.formula c ∨ ∃ l, A l.natAbs ∧ BlockedOn s c l

/-- Every model of the clauses agrees with the checker, but for auxiliary variables. -/
def Represents (A : ℕ → Prop) (F : List (List ℤ)) (s : Checker) : Prop :=
  ∀ α, models α F = true → ∃ β, AgreeOff A α β ∧ Agrees β s

theorem Represents.completes (h : Represents A F s) : Completes A F s.formula := by
  intro α hα
  obtain ⟨β, hβ, hagrees⟩ := h α hα
  exact ⟨β, hβ, hagrees.toFits.models_formula⟩

/-- A call whose clause some model of the formula satisfies. -/
theorem represents_of_completes (h : Completes A F (c :: s.formula)) (hs : s.inconsistent = false)
    (hreturns : ∀ β, Agrees β s → satisfies β c = true → Agrees β s') : Represents A F s' := by
  intro α hα
  obtain ⟨β, hβ, hmodels⟩ := h α hα
  have hformula : models β s.formula = true :=
    models_iff.mpr fun d hd => models_iff.mp hmodels d (List.mem_cons_of_mem c hd)
  exact ⟨β, hβ, hreturns β ⟨fits_iff.mpr hformula, hs⟩ (models_iff.mp hmodels c List.mem_cons_self)⟩

theorem represents_derived (h : Represents A F s) (hs : Idle s) (hc : (0 : ℤ) ∉ c)
    (hcareful : Rup s.formula c ∨ ∃ l, A l.natAbs ∧ BlockedOn s c l)
    (hreturns : ∀ β, Agrees β s → satisfies β c = true → Agrees β s') : Represents A F s' := by
  refine represents_of_completes ?_ hs.consistent hreturns
  rcases hcareful with hrup | ⟨l, hl, hblocked⟩
  · refine h.completes.of_implied fun β hβ => models_iff.mpr fun d hd => ?_
    rcases List.mem_cons.mp hd with rfl | hd
    · exact hrup.satisfies hs.toRooted.formula_ne_zero hc hβ
    · exact models_iff.mp hβ d hd
  · have hl0 : l ≠ 0 := by
      rintro rfl
      exact hc hblocked.mem
    refine (h.completes.redundant (hblocked.redundant hs.toRooted hl0)).mono fun v hv => ?_
    rcases hv with hv | rfl
    · exact hv
    · exact hl

theorem represents_step (h : Represents A F s) (hs : Resting s) (hks : Recalls s ks) (he : e.Proper)
    (hcareful : Careful A s e) (hok : (step s e).1 = .ok ()) : Represents A (F ++ given e) (step s e).2 := by
  have hstays : ∀ G, Represents A G s → ∀ s', (∀ α, Agrees α s → Agrees α s') → Represents A G s' := by
    intro G hG s' hagrees α hα
    obtain ⟨β, hβ, hβs⟩ := hG α hα
    exact ⟨β, hβ, hagrees β hβs⟩
  by_cases hgiven : s.inconsistent = true
  · rw [step_inconsistent hgiven]
    intro α hα
    obtain ⟨β, -, hβ⟩ := h α (models_append_iff.mp hα).1
    exact absurd hβ (not_agrees hgiven)
  · have hidle : Idle s := hs.resolve_left hgiven
    obtain ⟨s', hreturns⟩ := step_returns hs hks he hok
    have hagrees := hreturns.agrees
    rw [hreturns.run]
    cases e with
    | original id c =>
      have hgives := h.completes.given (hcareful.1 c List.mem_cons_self)
      refine represents_of_completes hgives hidle.consistent fun β hβ hsat => hagrees β hβ ?_
      simpa [given, derivation] using hsat
    | derived id c =>
      rw [show given (.derived id c) = [] from rfl, List.append_nil]
      refine represents_derived h hidle he.2 (hcareful.2 c List.mem_cons_self) fun β hβ hsat => hagrees β hβ ?_
      simpa [given, derivation] using hsat
    | delete id c =>
      rw [show given (.delete id c) = [] from rfl, List.append_nil]
      exact hstays F h s' fun α hα => hagrees α hα (by simp [given, derivation])
    | assumption id c =>
      rw [show given (.assumption id c) = [] from rfl, List.append_nil]
      refine represents_derived h hidle he.2 (hcareful.2 c List.mem_cons_self) fun β hβ hsat => hagrees β hβ ?_
      simpa [given, derivation] using hsat

theorem represents_run {es : List Call} (h : Represents A F s) (hs : Resting s) (hks : Recalls s ks)
    (hes : ∀ e ∈ es, e.Proper) (hok : Accepted s es) (hcareful : Every step (fun s e _ => Careful A s e) s es) :
    Represents A (F ++ originals es) (run step s es) := by
  induction es generalizing s F ks with
  | nil =>
    rw [originals, List.flatMap_nil, List.append_nil]
    exact h
  | cons e es ih =>
    have he := hes e List.mem_cons_self
    obtain ⟨hrest, hrecalls⟩ := step_keeps hs hks he hok.1
    have hnext := ih (represents_step h hs hks he hcareful.1 hok.1) hrest hrecalls
      (fun d hd => hes d (List.mem_cons_of_mem e hd)) hok.2 hcareful.2
    rw [List.append_assoc] at hnext
    exact hnext

/-- A careful run that the checker accepts changes models of the original clauses into models of the formula on
auxiliary variables only, and when the checker has found a conflict the original clauses have no model. -/
theorem accepted_run_sound {es : List Call} (hes : ∀ e ∈ es, e.Proper) (hok : Accepted new es)
    (hcareful : Every step (fun s e _ => Careful A s e) new es) :
    Completes A (originals es) (run step new es).formula ∧
      ((run step new es).inconsistent = true → ∀ α, models α (originals es) = false) := by
  have hnew : Represents A [] new := by
    intro α _
    refine ⟨α, fun _ _ => rfl, ⟨fun {a c} hc => ?_, fun l hl => ?_⟩, rfl⟩
    · rw [clauseAt_new] at hc
      cases hc
    · cases hl
  have hrun := represents_run hnew (.inr idle_new) recalls_new hes hok hcareful
  rw [List.nil_append] at hrun
  refine ⟨hrun.completes, fun hconflict α => ?_⟩
  cases hα : models α (originals es) with
  | false => rfl
  | true =>
    obtain ⟨β, -, hβ⟩ := hrun α hα
    exact absurd hβ (not_agrees hconflict)

/-- A run with a definition of the variable 3. -/
theorem accepted_run_sound_definition :
    Accepted new [.original 1 [1, 2], .original 2 [-1, 2], .derived 3 [2], .derived 4 [3, -2],
      .original 5 [-2]] ∧
    ∀ α, models α [[1, 2], [-1, 2], [-2]] = false := by
  have hes : ∀ e ∈ [Call.original 1 [1, 2], .original 2 [-1, 2], .derived 3 [2], .derived 4 [3, -2],
      .original 5 [-2]], e.Proper := by
    intro e he
    simp only [List.mem_cons, List.not_mem_nil, or_false] at he
    rcases he with rfl | rfl | rfl | rfl | rfl <;> exact ⟨by decide, by decide⟩
  have hok : Accepted new [.original 1 [1, 2], .original 2 [-1, 2], .derived 3 [2], .derived 4 [3, -2],
      .original 5 [-2]] := by
    refine ⟨?_, ?_, ?_, ?_, ?_, trivial⟩ <;> decide +kernel
  have hrup : Rup (run step new [.original 1 [1, 2], .original 2 [-1, 2]]).formula [2] := by
    have hunit : Propagates ((run step new [.original 1 [1, 2], .original 2 [-1, 2]]).formula ++
        units (negations [2])) noValues (-2) := .of_unit (by decide +kernel)
    have hforced : Propagates ((run step new [.original 1 [1, 2], .original 2 [-1, 2]]).formula ++
        units (negations [2])) noValues 1 := by
      have hclause : [1, 2] ∈ (run step new [.original 1 [1, 2], .original 2 [-1, 2]]).formula ++
          units (negations [2]) := by decide +kernel
      refine .unit hclause List.mem_cons_self fun x hx hne => ?_
      obtain rfl : x = 2 := by simpa [hne] using hx
      exact hunit
    refine ⟨[-1, 2], by decide +kernel, fun x hx => ?_⟩
    simp only [List.mem_cons, List.not_mem_nil, or_false] at hx
    rcases hx with rfl | rfl
    · exact hforced
    · exact hunit
  have hblocked : BlockedOn (run step new [.original 1 [1, 2], .original 2 [-1, 2], .derived 3 [2]]) [3, -2] 3 :=
    ⟨by decide, by decide +kernel⟩
  have hcareful : Every step (fun s e _ => Careful (· = 3) s e) new [.original 1 [1, 2], .original 2 [-1, 2],
      .derived 3 [2], .derived 4 [3, -2], .original 5 [-2]] := by
    refine ⟨⟨by decide, by simp [derivation]⟩, ⟨by decide, by simp [derivation]⟩, ⟨by simp [given], ?_⟩,
      ⟨by simp [given], ?_⟩, ⟨by decide, by simp [derivation]⟩, trivial⟩
    · intro c hc
      obtain rfl : c = [2] := by simpa [derivation] using hc
      exact .inl hrup
    · intro c hc
      obtain rfl : c = [3, -2] := by simpa [derivation] using hc
      exact .inr ⟨3, rfl, hblocked⟩
  exact ⟨hok, (accepted_run_sound hes hok hcareful).2 (by decide +kernel)⟩

-- the table says nothing of the unit, so the last clause passes for blocked on its first literal
example : Accepted new [.original 1 [-1], .original 2 [-2, 3], .original 3 [-2, -3], .derived 4 [1, 2]] ∧
    (run step new [.original 1 [-1], .original 2 [-2, 3], .original 3 [-2, -3], .derived 4 [1, 2]]).inconsistent
      = true ∧
    models (fun _ => false) [[-1], [-2, 3], [-2, -3]] = true := by
  refine ⟨⟨?_, ?_, ?_, ?_, trivial⟩, ?_, rfl⟩ <;> decide +kernel

end Zusat.Checker
