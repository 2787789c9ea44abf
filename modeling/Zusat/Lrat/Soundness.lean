import Zusat.Foundations.Runs
import Zusat.Lrat.Calls
import Mathlib.Data.List.Perm.Basic

/-! # Proofs the LRAT checker accepts

An accepted proof turns the models of the original clauses into models of the table, at the price of the
variables on which blocked clauses were added. The checker does not watch these variables itself: a clause
added later may mention one of them, and a clause saved for later may contain the negation of a pivot. Where
neither happens, a conflict concluded by an accepted proof means that the original clauses have no model. -/

namespace Zusat.LratChecker
open Foundations Foundations.Prog
set_option autoImplicit false

/-- Every call of the proof returns. -/
def Accepted (s : LratChecker) (es : List Event) : Prop := Every step (fun _ _ r => r = .ok ()) s es

/-- The original clause a call adds. -/
def given : Event → List (List ℤ)
  | .original _ c false => [c]
  | _ => []

/-- The original clauses of a proof. -/
def originals (es : List Event) : List (List ℤ) := es.flatMap given

/-- The clause and the chain of a call that derives a clause. -/
def derivation : Event → Option (ℤ × List ℤ × List ℤ)
  | .derived id c chain => some (id, c, chain)
  | .assumptionClause id c chain => some (id, c, chain)
  | _ => none

/-- The literal on which a clause is blocked that its chain does not derive. -/
def pivotOf (s : LratChecker) (e : Event) : List ℤ :=
  match derivation e with
  | some (id, c, chain) => if viaChain s id c chain then [] else (pivot chain c s.clauses.flatten).toList
  | none => []

/-- The clauses a call names in its chain. -/
def named (s : LratChecker) (e : Event) : List LratCheckerClause :=
  match derivation e with
  | some (_, _, chain) => s.clauses.flatten.filter fun d => chain.contains (-d.id)
  | none => []

/-- What the checker does not check: an original clause mentions no earlier pivot, and for a blocked clause
the clauses named by its chain repeat no literal and no saved clause contains the negation of its pivot. -/
def Careful (pivots : List ℤ) (s : LratChecker) (e : Event) : Prop :=
  (∀ c ∈ given e, ∀ l ∈ c, ∀ p ∈ pivots, l.natAbs ≠ p.natAbs) ∧
    ∀ p ∈ pivotOf s e, (∀ d ∈ named s e, d.literals.Nodup) ∧ ∀ q ∈ s.clausesToReconstruct, -p ∉ q.2

/-- The pivots of a proof, the latest first. -/
def pivotsFrom (pivots : List ℤ) (s : LratChecker) : List Event → List ℤ
  | [] => pivots
  | e :: es => pivotsFrom (pivotOf s e ++ pivots) (step s e).2 es

def CarefulFrom (pivots : List ℤ) (s : LratChecker) : List Event → Prop
  | [] => True
  | e :: es => Careful pivots s e ∧ CarefulFrom (pivotOf s e ++ pivots) (step s e).2 es

/-- The clauses of the table and those saved. -/
def holding (s : LratChecker) : List (List ℤ) := s.table ++ s.clausesToReconstruct.map (·.2)

/-- The variables of some literals. -/
def varsOf (ls : List ℤ) (v : ℕ) : Prop := ∃ l ∈ ls, v = l.natAbs

/-! ## One step -/

section Step
variable {s s' : LratChecker} {pivots : List ℤ} {F : List (List ℤ)}

theorem models_holding {β : Assignment} : models β s.holding = true ↔
    (∀ D ∈ s.table, satisfies β D = true) ∧ ∀ q ∈ s.clausesToReconstruct, satisfies β q.2 = true := by
  rw [holding, models_append_iff, models_iff, models_iff, List.forall_mem_map]

theorem satisfies_perm {β : Assignment} {C D : List ℤ} (h : C.Perm D) : satisfies β C = satisfies β D :=
  List.Perm.any_eq h

theorem satisfies_mono {β : Assignment} {C D : List ℤ} (h : ∀ l ∈ C, l ∈ D) (hC : satisfies β C = true) :
    satisfies β D = true := by
  obtain ⟨l, hl, htrue⟩ := satisfies_iff.mp hC
  exact satisfies_iff.mpr ⟨l, h l hl, htrue⟩

/-- A call that adds at most clauses that are true in every model of what is held. -/
theorem completes_weaker (h : Completes (varsOf pivots) F s.holding)
    (htable : ∀ β, models β s.holding = true → ∀ D ∈ s'.table, satisfies β D = true)
    (hsaved : ∀ β, models β s.holding = true → ∀ q ∈ s'.clausesToReconstruct, satisfies β q.2 = true) :
    Completes (varsOf pivots) F s'.holding :=
  h.of_implied fun β hβ => models_holding.mpr ⟨htable β hβ, hsaved β hβ⟩

theorem mem_of_lookup {id : ℤ} {c : List ℤ} {saved : List (ℤ × List ℤ)} (h : saved.lookup id = some c) :
    ∃ q ∈ saved, q.2 = c := by
  induction saved with
  | nil => cases h
  | cons q saved ih =>
    rw [List.lookup_cons] at h
    split at h
    · exact ⟨q, List.mem_cons_self .., by simpa using h⟩
    · obtain ⟨q', hq', heq⟩ := ih h
      exact ⟨q', List.mem_cons_of_mem q hq', heq⟩

/-- A clause blocked in the table is blocked in all that is held when no saved clause has the negation. -/
theorem redundant_of_blocked (hs : TableAtRest s) {c : List ℤ} {l : ℤ} (hl : l ≠ 0) (h : Blocked s.table c l)
    (hsaved : ∀ q ∈ s.clausesToReconstruct, -l ∉ q.2) : Redundant s.holding c [l] := by
  have hcase : ∀ D ∈ s.holding, -l ∈ D → D ∈ s.table := by
    intro D hD hneg
    rcases List.mem_append.mp hD with hD | hD
    · exact hD
    · obtain ⟨q, hq, rfl⟩ := List.mem_map.mp hD
      exact absurd hneg (hsaved q hq)
  refine Blocked.redundant ⟨h.mem, fun D hD hneg => h.clash D (hcase D hD hneg) hneg⟩ ?_ hl
  intro D hD hneg hzero
  obtain ⟨d, hd, rfl⟩ := List.mem_map.mp (hcase D hD hneg)
  exact ((hs.table d hd).known 0 hzero).1 rfl

/-- The clause of a derivation joins what is held. -/
theorem completes_derived (hs : TableAtRest s) {id : ℤ} {c chain : List ℤ} {e : Event}
    (he : derivation e = some (id, c, chain)) (hzero : ∀ l ∈ c, l ≠ 0) (hderived : Derived s id c chain)
    (hcareful : Careful pivots s e) (h : Completes (varsOf pivots) F s.holding) :
    Completes (varsOf (pivotOf s e ++ pivots)) F (c :: s.holding) := by
  cases hderived with
  | implied hvia himplied =>
    have hpivot : pivotOf s e = [] := by rw [pivotOf, he]; simp [hvia]
    rw [hpivot, List.nil_append]
    refine h.of_implied fun β hβ => models_iff.mpr fun D hD => ?_
    rcases List.mem_cons.mp hD with rfl | hD
    · exact himplied β (models_append_iff.mp hβ).1
    · exact models_iff.mp hβ D hD
  | blocked hvia l hl hblocked =>
    have hpivot : pivotOf s e = [l] := by rw [pivotOf, he]; simp [hvia, hl]
    have hmem : l ∈ c := List.mem_of_find?_eq_some hl
    obtain ⟨hnodup, hsaved⟩ := hcareful.2 l (by rw [hpivot]; exact List.mem_singleton_self l)
    have hnamed : ∀ d ∈ s.clauses.flatten, chain.contains (-d.id) = true → d.literals.Nodup := by
      intro d hd hin
      apply hnodup
      rw [named, he]
      exact List.mem_filter.mpr ⟨hd, hin⟩
    have hred := redundant_of_blocked hs (hzero l hmem) (hblocked hnamed) hsaved
    rw [hpivot]
    refine (h.redundant hred).mono fun v hv => ?_
    rcases hv with ⟨p, hp, rfl⟩ | rfl
    · exact ⟨p, List.mem_cons_of_mem l hp, rfl⟩
    · exact ⟨l, List.mem_cons_self .., rfl⟩

theorem completes_step (hs : TableAtRest s) {e : Event} (hdid : Did s s' e) (hcareful : Careful pivots s e)
    (h : Completes (varsOf pivots) F s.holding) :
    Completes (varsOf (pivotOf s e ++ pivots)) (F ++ given e) s'.holding := by
  cases hdid with
  | nothing he hclauses hsaved =>
    have hgiven : given e = [] := by
      cases e <;> first | rfl | exact he.elim
    have hpivot : pivotOf s e = [] := by
      cases e <;> first | rfl | exact he.elim
    rw [hgiven, hpivot, List.append_nil, List.nil_append, holding, table, hclauses, hsaved]
    exact h
  | @original id c hadds hsaved hnew =>
    have havoid : ∀ l ∈ c, ¬varsOf pivots l.natAbs := by
      rintro l hl ⟨p, hp, heq⟩
      exact hcareful.1 c (List.mem_singleton_self c) l hl p hp heq
    refine (h.given havoid).of_implied fun β hβ => ?_
    obtain ⟨htable, hrest⟩ := models_holding.mp
      (models_iff.mpr fun D hD => models_iff.mp hβ D (List.mem_cons_of_mem c hD))
    refine models_holding.mpr ⟨fun D hD => ?_, hsaved ▸ hrest⟩
    rcases hadds.mem_table.mp hD with rfl | hD
    · exact models_iff.mp hβ D (List.mem_cons_self ..)
    · exact htable D hD
  | @restored id c hadds hlookup hsaved =>
    rw [show given (.original id c true) = [] from rfl, List.append_nil]
    obtain ⟨q, hq, hsort⟩ := mem_of_lookup hlookup
    refine completes_weaker h (fun β hβ D hD => ?_) (fun β hβ r hr => ?_)
    · rcases hadds.mem_table.mp hD with rfl | hD
      · have htrue := (models_holding.mp hβ).2 q hq
        rwa [hsort, satisfies_perm (List.mergeSort_perm D _)] at htrue
      · exact (models_holding.mp hβ).1 D hD
    · rw [hsaved] at hr
      exact (models_holding.mp hβ).2 r (List.mem_of_mem_filter hr)
  | @derived id c chain hadds hsaved hnew hderived =>
    rw [show given (.derived id c chain) = [] from rfl, List.append_nil]
    have hjoin := completes_derived hs (e := .derived id c chain) rfl hadds.nonzero hderived hcareful h
    refine hjoin.of_implied fun β hβ => ?_
    have hheld := models_holding.mp
      (models_iff.mpr fun D hD => models_iff.mp hβ D (List.mem_cons_of_mem c hD))
    refine models_holding.mpr ⟨fun D hD => ?_, hsaved ▸ hheld.2⟩
    rcases hadds.mem_table.mp hD with rfl | hD
    · exact models_iff.mp hβ D (List.mem_cons_self ..)
    · exact hheld.1 D hD
  | @assumed id c chain hperm hsaved hnew hderived =>
    rw [show given (.assumptionClause id c chain) = [] from rfl, List.append_nil]
    have hmono : Completes (varsOf (pivotOf s (.assumptionClause id c chain) ++ pivots)) F s.holding := by
      apply h.mono
      rintro v ⟨p, hp, heq⟩
      exact ⟨p, List.mem_append_right _ hp, heq⟩
    refine completes_weaker hmono (fun β hβ D hD => ?_) (fun β hβ r hr => ?_)
    · exact (models_holding.mp hβ).1 D ((hperm.map _).mem_iff.mpr hD)
    · exact (models_holding.mp hβ).2 r (hsaved ▸ hr)
  | @deleted id c hdeletes =>
    rw [show given (.delete id c) = [] from rfl, List.append_nil]
    refine completes_weaker h (fun β hβ D hD => ?_) (fun β hβ r hr => ?_)
    · exact (models_holding.mp hβ).1 D (hdeletes.mem_table hD)
    · exact (models_holding.mp hβ).2 r (hdeletes.saved ▸ hr)
  | @weakened id c hclauses hpart hsaved =>
    rw [show given (.weakenMinus id c) = [] from rfl, List.append_nil]
    obtain ⟨D₀, hD₀, hsub⟩ := hpart
    refine completes_weaker h (fun β hβ D hD => ?_) (fun β hβ r hr => ?_)
    · rw [table, hclauses] at hD
      exact (models_holding.mp hβ).1 D hD
    · rw [hsaved] at hr
      rcases List.mem_cons.mp hr with rfl | hr
      · have htrue := satisfies_mono hsub ((models_holding.mp hβ).1 D₀ hD₀)
        rwa [← satisfies_perm (List.mergeSort_perm c _)] at htrue
      · exact (models_holding.mp hβ).2 r (List.mem_of_mem_filter hr)

end Step

/-! ## Whole proofs -/

theorem completes_run {es : List Event} {s : LratChecker} (hs : TableAtRest s) {pivots : List ℤ}
    {F : List (List ℤ)} (hok : Accepted s es) (hcareful : CarefulFrom pivots s es)
    (h : Completes (varsOf pivots) F s.holding) :
    Completes (varsOf (pivotsFrom pivots s es)) (F ++ originals es) (run step s es).holding := by
  induction es generalizing s pivots F with
  | nil =>
    rw [originals, List.flatMap_nil, List.append_nil]
    exact h
  | cons e es ih =>
    obtain ⟨hatrest, hdid⟩ := step_did hs hok.1
    have hnext := ih hatrest hok.2 hcareful.2 (completes_step hs hdid hcareful.1 h)
    rw [List.append_assoc] at hnext
    exact hnext

/-- An accepted proof changes models of the original clauses into models of the table on its pivots only,
and when it concludes a conflict the original clauses have no model. -/
theorem accepted_proof_sound (es : List Event) (hok : Accepted new es) (hcareful : CarefulFrom [] new es) :
    Completes (varsOf (pivotsFrom [] new es)) (originals es) (run step new es).table ∧
      ∀ ids, (step (run step new es) (.conclude .conflict ids)).1 = .ok () →
        ∀ α, models α (originals es) = false := by
  have hrun := completes_run tableAtRest_new hok hcareful (completes_nil _ [])
  rw [List.nil_append] at hrun
  have htable : Completes (varsOf (pivotsFrom [] new es)) (originals es) (run step new es).table :=
    hrun.of_implied fun β hβ => (models_append_iff.mp hβ).1
  refine ⟨htable, fun ids hconclude α => ?_⟩
  have hend : (concludeUnsat .conflict ids).run (run step new es) =
      (.ok (), (step (run step new es) (.conclude .conflict ids)).2) := Prod.ext hconclude rfl
  have hempty := (concludeUnsat_spec hend).2 rfl
  cases hα : models α (originals es) with
  | false => rfl
  | true =>
    obtain ⟨β, -, hβ⟩ := htable α hα
    have hnil := models_iff.mp hβ [] hempty
    cases hnil

/-- A proof with one clause on a fresh variable, which the conflict does without. -/
theorem accepted_proof_sound_extension :
    Accepted new [.original 1 [1, 2] false, .original 2 [-1, 2] false, .derived 3 [2] [1, 2],
      .derived 4 [3, -2] [], .original 5 [-2] false, .derived 6 [] [3, 5]] ∧
    ∀ α, models α [[1, 2], [-1, 2], [-2]] = false := by
  have hok : Accepted new [.original 1 [1, 2] false, .original 2 [-1, 2] false, .derived 3 [2] [1, 2],
      .derived 4 [3, -2] [], .original 5 [-2] false, .derived 6 [] [3, 5]] := by
    refine ⟨?_, ?_, ?_, ?_, ?_, ?_, trivial⟩ <;> decide +kernel
  refine ⟨hok, ?_⟩
  apply (accepted_proof_sound _ hok ?_).2 [6] (by decide +kernel)
  refine ⟨?_, ?_, ?_, ?_, ?_, ?_, trivial⟩ <;> exact ⟨by decide +kernel, by decide +kernel⟩

-- two copies of a literal pass for two clashes
example : Accepted new [.original 1 [1, 1] false, .derived 2 [-1] [-1], .derived 3 [] [2, 1],
    .conclude .conflict [3]] ∧ models (fun _ => true) [[1, 1]] = true := by
  refine ⟨⟨?_, ?_, ?_, ?_, trivial⟩, rfl⟩ <;> decide +kernel

end Zusat.LratChecker
