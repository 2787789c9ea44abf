import Mathlib
import Zusat.Session.Outcome

/-! # An enumeration ends

The measure is the set of assignments of the projected variables that the clauses still allow. A search
that says `sat` reads one of them and the blocking clause takes it away, so an iteration that goes on
leaves strictly fewer; with `m` projected variables there are at most `2 ^ m` to begin with. The limit
plays no part. -/

namespace Zusat
open Foundations Foundations.Prog
set_option autoImplicit false

namespace Session

/-- A search that says `sat` has found a model of the clauses. -/
def Sound (ask : Oracle) : Prop :=
  ∀ c, (ask c).res = .sat → models (modelOf c (ask c)) c.clauses = true

/-! ## What the clauses allow -/

/-- The assignments of `vs` that the clauses allow. -/
def allowed (vs : List ℤ) (F : List (List ℤ)) : Set (List Bool) :=
  { b | ∃ α, models α F = true ∧ project vs α = b }

theorem length_allowed {vs : List ℤ} {F : List (List ℤ)} {b : List Bool} (h : b ∈ allowed vs F) :
    b.length = vs.length := by
  obtain ⟨α, -, rfl⟩ := h
  exact List.length_map _

theorem finite_allowed (vs : List ℤ) (F : List (List ℤ)) : (allowed vs F).Finite :=
  (List.finite_length_eq Bool vs.length).subset fun _ h => length_allowed h

theorem ncard_allowed_le (vs : List ℤ) (F : List (List ℤ)) :
    (allowed vs F).ncard ≤ 2 ^ vs.length := by
  have hcard := length_le_two_pow (finite_allowed vs F).toFinset.nodup_toList fun b hb =>
    length_allowed ((finite_allowed vs F).mem_toFinset.mp (Finset.mem_toList.mp hb))
  rwa [Finset.length_toList, ← Set.ncard_eq_toFinset_card _ (finite_allowed vs F)] at hcard

/-- Blocking an allowed assignment leaves strictly fewer. -/
theorem allowed_block {vs : List ℤ} (hvs : ∀ v ∈ vs, 0 < v) {F : List (List ℤ)} {value : List Bool}
    (hvalue : value ∈ allowed vs F) :
    allowed vs (F ++ [blockingClause vs value]) ⊂ allowed vs F := by
  have hblocked : ∀ α, models α [blockingClause vs value] = true ↔ project vs α ≠ value := by
    intro α
    rw [← satisfies_blockingClause hvs (length_allowed hvalue), models_iff]
    simp
  refine ⟨?_, fun hall => ?_⟩
  · rintro b ⟨α, hα, hb⟩
    exact ⟨α, (models_append_iff.mp hα).1, hb⟩
  · obtain ⟨α, hα, hb⟩ := hall hvalue
    exact (hblocked α).mp (models_append_iff.mp hα).2 hb

/-! ## The iterations -/

/-- What holds whenever the loop tests its condition. -/
structure Going (s : Session) (r : Request) (t : Session) (st : Enumeration) : Prop where
  holds : ∃ G, Holds t G
  aux : t.aux = s.aux
  tallying : Tallying s r t st

section Iteration
variable {s t : Session} {r : Request} {st : Enumeration} {ask : Oracle}

theorem going_start {F : List (List ℤ)} (hs : Holds s F) (r : Request) :
    Going s r s ⟨[], [], .unknown, .limit⟩ := ⟨⟨F, hs⟩, rfl, tallying_start s r⟩

theorem Going.valid (h : Going s r t st) : t.solver.state.valid = true := by
  obtain ⟨G, hG⟩ := h.holds
  exact hG.valid

/-- An iteration that reads and blocks an assignment. -/
theorem Going.next (h : Going s r t st) (hr : r.Checked s.aux) (hask : Sound ask)
    (hsat : (roundAnswer t r ask).res = .sat) (hplain : (asked t r ask).Unextended)
    (hne : r.projection s ≠ []) {value : List Bool}
    (hvalue : value = roundValue (asked t r ask) (r.projection s)) :
    Going s r (withClause (asked t r ask) (blockingClause (r.projection s) value))
        (st.reading (r.projection s) value) ∧
      allowed (r.projection s)
          (withClause (asked t r ask) (blockingClause (r.projection s) value)).solver.clauses ⊂
        allowed (r.projection s) t.solver.clauses := by
  obtain ⟨G, hG⟩ := h.holds
  have hblocked := (hG.asked hr.constraint ask).withClause (blockingClause (r.projection s) value)
  refine ⟨⟨⟨_, hblocked⟩, (asked_aux t r ask).trans h.aux, h.tallying.next hplain hne value⟩, ?_⟩
  rw [hblocked.clauses, hG.clauses]
  refine allowed_block hr.projection_pos ⟨modelOf (searchedFrom t r) (roundAnswer t r ask), ?_, ?_⟩
  · have hclauses : (searchedFrom t r).clauses = G := (asked_clauses t r ask).1.trans hG.clauses
    rw [← hclauses]
    exact hask (searchedFrom t r) hsat
  · rw [hvalue, roundValue_asked (asked_maxVar_of_unextended hplain) hr.projection_pos]

/-- An iteration leaves the loop, or goes on with strictly fewer assignments allowed. -/
theorem Going.iteration (h : Going s r t st) (hr : r.Checked s.aux) (hask : Sound ask) :
    (∃ p, ∀ again,
      (satSolutionsRound r.vars r.assumptions r.constraint ask again st).run t = p) ∨
    ∃ t' st', Going s r t' st' ∧
      allowed (r.projection s) t'.solver.clauses ⊂ allowed (r.projection s) t.solver.clauses ∧
      ∀ again, (satSolutionsRound r.vars r.assumptions r.constraint ask again st).run t =
        (again st').run t' := by
  have hrt : r.Checked t.aux := h.aux ▸ hr
  rcases round_cases h.valid hrt ask st with
    ⟨e, t', -, hrun⟩ | ⟨-, -, hrun⟩ | ⟨-, -, -, -, hrun⟩ |
      ⟨-, hsat, vs, value, hvs, hvalue, -, hne, hplain, -, hrun⟩ |
      ⟨-, -, vs, value, q, l, e, -, -, -, -, -, -, hrun⟩
  · exact .inl ⟨_, hrun⟩
  · exact .inl ⟨_, hrun⟩
  · exact .inl ⟨_, hrun⟩
  · rw [h.tallying.roundVars hplain] at hvs
    subst hvs
    obtain ⟨hgoing, hfewer⟩ := h.next hr hask hsat hplain hne hvalue
    exact .inr ⟨_, _, hgoing, hfewer, hrun⟩
  · exact .inl ⟨_, hrun⟩

end Iteration

/-! ## The loop -/

section Loop
variable {s t t' : Session} {r : Request} {st st' : Enumeration} {asks : List Oracle}

/-- Once there are more searches than assignments allowed, further ones are not asked for. -/
theorem loop_ends (hr : r.Checked s.aux) (h : Going s r t st) (hasks : ∀ ask ∈ asks, Sound ask)
    (henough : (allowed (r.projection s) t.solver.clauses).ncard < asks.length)
    (more : List Oracle) :
    (satSolutionsLoop r.limit r.vars r.assumptions r.constraint (asks ++ more) st).run t =
      (satSolutionsLoop r.limit r.vars r.assumptions r.constraint asks st).run t := by
  induction asks generalizing t st with
  | nil => exact absurd henough (Nat.not_lt_zero _)
  | cons ask asks ih =>
    rw [List.cons_append, satSolutionsLoop, satSolutionsLoop]
    split
    · rcases h.iteration hr (hasks ask (List.mem_cons_self ..)) with
        ⟨p, hrun⟩ | ⟨t', st', hgoing, hfewer, hrun⟩
      · rw [hrun, hrun]
      · have hlt := Set.ncard_lt_ncard hfewer (finite_allowed _ _)
        rw [hrun, hrun]
        refine ih hgoing (fun a ha => hasks a (List.mem_cons_of_mem ask ha)) ?_
        rw [List.length_cons] at henough
        omega
    · rfl

/-- A loop that returned made at most one search more than there were assignments allowed. -/
theorem Rounds.length_le {made : List (Session × Oracle)} (h : Rounds r asks t st made st' t')
    (hr : r.Checked s.aux) (hasks : ∀ ask ∈ asks, Sound ask) (hgoing : Going s r t st) :
    made.length ≤ (allowed (r.projection s) t.solver.clauses).ncard + 1 := by
  induction h with
  | limit => exact Nat.zero_le _
  | missed => exact Nat.le_add_left 1 _
  | single => exact Nat.le_add_left 1 _
  | more _ hres hplain hvs hne hvalue _ ih =>
    rw [hgoing.tallying.roundVars hplain] at hvs
    subst hvs
    obtain ⟨hnext, hfewer⟩ :=
      hgoing.next hr (hasks _ (List.mem_cons_self ..)) hres hplain hne hvalue
    have hlt := Set.ncard_lt_ncard hfewer (finite_allowed _ _)
    have hrest := ih (fun a ha => hasks a (List.mem_cons_of_mem _ ha)) hnext
    rw [List.length_cons]
    omega

/-- With that many searches, none of them interrupted, the loop returns. -/
theorem loop_returns_of_sound (hr : r.Checked s.aux) (h : Going s r t st) (ho : Open t)
    (hasks : ∀ ask ∈ asks, Sound ask ∧ ∀ c, (ask c).interrupted = false)
    (henough : (allowed (r.projection s) t.solver.clauses).ncard < asks.length) :
    ∃ st' t', (satSolutionsLoop r.limit r.vars r.assumptions r.constraint asks st).run t =
      (.ok st', t') := by
  induction asks generalizing t st with
  | nil => exact absurd henough (Nat.not_lt_zero _)
  | cons ask asks ih =>
    rw [satSolutionsLoop]
    split
    · obtain ⟨G, hG⟩ := h.holds
      have hrt : r.Checked t.aux := h.aux ▸ hr
      obtain ⟨hask, hquick⟩ := hasks ask (List.mem_cons_self ..)
      have hplain : (asked t r ask).Unextended := fun v _ =>
        (hG.asked hr.constraint ask).off.ervars v
      rcases round_returns ho hG hrt (hquick _) (satSolutionsLoop r.limit r.vars r.assumptions
        r.constraint asks) st with ⟨-, hrun⟩ | ⟨-, -, hrun⟩ | ⟨hsat, hne, hrun⟩
      · exact ⟨_, _, hrun⟩
      · exact ⟨_, _, hrun⟩
      · have ho' := ho.asked hG hrt ask
        have hvs := roundVars_valid hrt ho'.maxVar
        rw [h.tallying.roundVars hplain] at hne hrun hvs
        obtain ⟨hnext, hfewer⟩ := h.next hr hask hsat hplain hne rfl
        have hlt := Set.ncard_lt_ncard hfewer (finite_allowed _ _)
        rw [hrun]
        refine ih hnext (ho'.withClause (blockingClause_valid (fun v hv => (hvs v hv).1) _))
          (fun a ha => hasks a (List.mem_cons_of_mem ask ha)) ?_
        rw [List.length_cons] at henough
        omega
    · exact ⟨st, t, rfl⟩

end Loop

/-- From a session that holds a formula, an enumeration is over after `2 ^ m + 1` searches, `m` being the
number of variables it projects onto: it does not ask for another, it has made no more when it returns,
and it does return if CaDiCaL takes its literals, checks no results and nobody interrupts it. Every
iteration leaves the loop or goes on with strictly fewer assignments of these variables allowed by the
clauses. -/
theorem enumeration_ends {s : Session} {F : List (List ℤ)} (hs : Holds s F)
    (limit vars assumptions constraint : RValue) {r : Request}
    (hr : solutionsHands s limit vars assumptions constraint = .ok r) (asks : List Oracle)
    (hasks : ∀ ask ∈ asks, Sound ask) (henough : 2 ^ (r.projection s).length + 1 ≤ asks.length) :
    (∀ more, (satSolutions limit vars assumptions constraint (asks ++ more)).run s =
      (satSolutions limit vars assumptions constraint asks).run s) ∧
    (∀ out s', (satSolutions limit vars assumptions constraint asks).run s = (.ok out, s') →
      ∃ made, s'.solver.searches = s.solver.searches ++ made ∧
        made.length ≤ 2 ^ (r.projection s).length + 1) ∧
    (s.solver.opts "checkfrozen" = 0 → s.solver.opts "check" = 0 → s.solver.maxVar ≤ zusatMaxVar →
      (∀ ask ∈ asks, ∀ c, (ask c).interrupted = false) →
      ∃ out s', (satSolutions limit vars assumptions constraint asks).run s = (.ok out, s')) ∧
    Going s r s ⟨[], [], .unknown, .limit⟩ ∧
    ∀ t st ask, Going s r t st → Sound ask →
      (∃ p, ∀ again,
        (satSolutionsRound r.vars r.assumptions r.constraint ask again st).run t = p) ∨
      ∃ t' st', Going s r t' st' ∧
        allowed (r.projection s) t'.solver.clauses ⊂ allowed (r.projection s) t.solver.clauses ∧
        ∀ again, (satSolutionsRound r.vars r.assumptions r.constraint ask again st).run t =
          (again st').run t' := by
  obtain ⟨hchecked, -, -⟩ := solutionsHands_ok hr
  have hgoing := going_start hs r
  have hcard := ncard_allowed_le (r.projection s) s.solver.clauses
  have hrun : ∀ asks, (satSolutions limit vars assumptions constraint asks).run s =
      (enumerate r asks).run s := by
    intro asks
    rw [run_satSolutions, hr, run_bind, run_ofExcept_ok, andThen_ok]
  refine ⟨fun more => ?_, fun out s' hout => ?_, fun hfrozen hcheck hmax hquick => ?_, hgoing,
    fun t st ask h hask => h.iteration hchecked hask⟩
  · rw [hrun, hrun, enumerate, enumerate, run_bind, run_bind,
      loop_ends hchecked hgoing hasks (by omega)]
  · obtain ⟨r', st, hits, last, hr', hrounds, -, -, -⟩ := satSolutions_rounds (.inl hs.valid) hout
    obtain rfl : r = r' := Except.ok.inj (hr.symm.trans hr')
    refine ⟨_, hrounds.searches, ?_⟩
    have hle := hrounds.length_le hchecked hasks hgoing
    rw [List.length_map]
    omega
  · obtain ⟨st, t, hloop⟩ := loop_returns_of_sound hchecked hgoing ⟨hfrozen, hcheck, hmax⟩
      (fun ask ha => ⟨hasks ask ha, hquick ask ha⟩) (by omega)
    exact ⟨_, t, by rw [hrun, enumerate]; exact run_bind_ok.mpr ⟨st, t, hloop, rfl⟩⟩

theorem Correct.sound {ask : Oracle} (h : Correct ask) : Sound ask := by
  intro c hsat
  have hmodel := h.sat c hsat
  rw [problem, models_append_iff, models_append_iff] at hmodel
  exact hmodel.1.1

theorem enumeration_ends_unit :
    let s := after [.add (.value (.ints [1]))]
    ∃ out s', (satSolutions (.num [.inf false]) (.ints [1, 1]) (.ints []) .null
      [guess, guess, guess]).run s = (.ok out, s') := by
  intro s
  have hs : Holds s [[1]] := holds_after ⟨⟨by simp [leavesFactor, setsOption], by decide⟩, trivial⟩
  have hr : solutionsHands s (.num [.inf false]) (.ints [1, 1]) (.ints []) .null =
      .ok ⟨.inf false, [], none, some [1]⟩ := by rfl
  have hends := enumeration_ends hs _ _ _ _ hr [guess, guess, guess]
    (fun ask hask => by
      obtain rfl : ask = guess := by simpa using hask
      exact correct_guess.sound) (by decide)
  refine hends.2.2.1 (by decide) (by decide) (by decide) fun ask hask c => ?_
  obtain rfl : ask = guess := by simpa using hask
  simp only [guess]
  split_ifs <;> rfl

end Session
end Zusat
