import Zusat.Session.Outcome
import Zusat.Session.Overflow
import Zusat.Session.Awaiting

/-! # A session says what its calls say

Every accepted call conjoins its own meaning to the formula. For an enumeration this is not what the user
wrote but what its searches found: each model found by a search that was not interrupted is ruled out on
the variables given, once, and nothing else is. -/

namespace Zusat
open Foundations Foundations.Prog
set_option autoImplicit false

namespace Session

/-! ## What an enumeration rules out -/

theorem modelsFound_append (qs qs' : List Search) :
    modelsFound (qs ++ qs') = modelsFound qs ++ modelsFound qs' := by
  rw [modelsFound, List.filter_append, List.map_append]
  rfl

theorem modelsFound_single {q : Search} (hres : q.answer.res = .sat) (hi : q.answer.interrupted = false) :
    modelsFound [q] = [q.model] := by
  simp [modelsFound, hres, hi]

theorem modelsFound_none {q : Search} (h : q.answer.res ≠ .sat ∨ q.answer.interrupted = true) :
    modelsFound [q] = [] := by
  rcases h with h | h
  · simp [modelsFound, h]
  · simp [modelsFound, h]

/-- The clause that rules out a model on the variables `vs`. -/
def exclude (vs : List ℤ) (β : Assignment) : List ℤ := excluding (valuation vs β)

theorem exclude_eq (vs : List ℤ) (β : Assignment) : exclude vs β = blockingClause vs (project vs β) := by
  rw [exclude, ← zip_project, excluding_zip]

theorem satisfies_exclude {vs : List ℤ} (hvs : ∀ v ∈ vs, 0 < v) (α β : Assignment) :
    satisfies α (exclude vs β) = true ↔ ∃ v ∈ vs, α v.natAbs ≠ β v.natAbs := by
  have hlen : (project vs β).length = vs.length := List.length_map _
  rw [exclude_eq, satisfies_blockingClause hvs hlen, project, project, ne_eq, List.map_inj_left]
  push Not
  rfl

/-- What the loop has searched and blocked on its way from `s` to `t`. -/
structure Blocked (vs : List ℤ) (s t : Session) (qs : List Search) : Prop where
  searches : t.solver.searches = s.solver.searches ++ qs
  clauses : t.solver.clauses =
    s.solver.clauses ++ if vs = [] then [] else (modelsFound qs).map (exclude vs)

/-- The loop variables after these searches. -/
structure Lists (vs : List ℤ) (qs : List Search) (st : Enumeration) : Prop where
  found : st.found = (modelsFound qs).map (project vs)
  thisVars : st.found ≠ [] → st.thisVars = vs

section Loop
variable {s t : Session} {r : Request} {vs : List ℤ} {qs : List Search} {st : Enumeration} {ask : Oracle}

theorem Blocked.start (vs : List ℤ) (s : Session) : Blocked vs s s [] := by
  refine ⟨(List.append_nil _).symm, ?_⟩
  simp [modelsFound]

/-- A search that finds nothing, or that is not asked to block what it finds. -/
theorem Blocked.asked (h : Blocked vs s t qs) (r : Request) (ask : Oracle)
    (hnone : vs = [] ∨ modelsFound [searchOf r (t, ask)] = []) :
    Blocked vs s (Session.asked t r ask) (qs ++ [searchOf r (t, ask)]) := by
  refine ⟨by rw [asked_searches, h.searches, List.append_assoc], ?_⟩
  rw [(asked_clauses t r ask).1, h.clauses, modelsFound_append]
  rcases hnone with rfl | hnone
  · rfl
  · rw [hnone, List.append_nil]

/-- A model that is found and blocked. -/
theorem Blocked.next (h : Blocked vs s t qs) (hne : vs ≠ []) (hclause : t.solver.clause = [])
    (hfound : modelsFound [searchOf r (t, ask)] = [(searchOf r (t, ask)).model]) :
    Blocked vs s (withClause (Session.asked t r ask) (exclude vs (searchOf r (t, ask)).model))
      (qs ++ [searchOf r (t, ask)]) := by
  obtain ⟨hclauses, hclause'⟩ := asked_clauses t r ask
  constructor
  · change (Session.asked t r ask).solver.searches = _
    rw [asked_searches, h.searches, List.append_assoc]
  · change (Session.asked t r ask).solver.clauses ++ [(Session.asked t r ask).solver.clause ++ _] = _
    rw [hclauses, hclause', hclause, h.clauses, modelsFound_append, hfound, if_neg hne, if_neg hne,
      List.map_append, List.append_assoc]
    rfl

theorem Lists.next (h : Lists vs qs st) {q : Search} (hq : modelsFound [q] = [q.model]) :
    Lists vs (qs ++ [q]) (st.reading vs (project vs q.model)) := by
  refine ⟨?_, fun _ => rfl⟩
  rw [modelsFound_append, hq, List.map_append, ← h.found]
  rfl

/-- What the loop leaves behind, however it ends, and what it lists when it returns. -/
def Ends (vs : List ℤ) (s : Session) (p : Except RError Enumeration × Session) : Prop :=
  ∃ qs, Blocked vs s p.2 qs ∧ ∀ st, p.1 = .ok st → Lists vs qs st

theorem loop_blocks (hs : Awaiting s none) (hmax : s.solver.maxVar ≤ zusatMaxVar) (hr : r.Checked s.aux)
    (hvars : r.vars = some vs) (asks : List Oracle) :
    Ends vs s ((satSolutionsLoop r.limit r.vars r.assumptions r.constraint asks
      ⟨[], [], .unknown, .limit⟩).run s) := by
  let J : Session → Enumeration → Prop := fun t st => Awaiting t none ∧ t.solver.maxVar ≤ zusatMaxVar ∧
    t.aux = s.aux ∧ ∃ qs, Blocked vs s t qs ∧ Lists vs qs st
  have hpure : ∀ t st, J t st → Ends vs s (.ok st, t) := by
    rintro t st ⟨-, -, -, qs, hblocked, hlists⟩
    refine ⟨qs, hblocked, fun st' hst => ?_⟩
    obtain rfl := Except.ok.inj hst
    exact hlists
  have hround : ∀ (ask : Oracle) again, True → (∀ t st, J t st → Ends vs s ((again st).run t)) →
      ∀ t st, J t st → Ends vs s
        ((satSolutionsRound r.vars r.assumptions r.constraint ask again st).run t) := by
    rintro ask again - hagain t st ⟨ht, hmax, haux, qs, hblocked, hlists⟩
    have hrt : r.Checked t.aux := haux ▸ hr
    have ho : Open t := ⟨ht.plain.frozen, ht.plain.unchecked, hmax⟩
    have ho' := ho.asked ht.holds hrt ask
    have hvs : roundVars r (asked t r ask) = vs := by rw [roundVars, hvars, Option.getD_some]
    cases hi : (roundAnswer t r ask).interrupted with
    | true =>
      rw [round_interrupted ho ht.holds hrt hi]
      refine ⟨_, hblocked.asked r ask (.inr (modelsFound_none (.inr hi))), fun st' hst => ?_⟩
      cases hst
    | false =>
      have hfound : (roundAnswer t r ask).res = .sat →
          modelsFound [searchOf r (t, ask)] = [(searchOf r (t, ask)).model] :=
        fun hsat => modelsFound_single hsat hi
      rcases round_returns ho ht.holds hrt hi again st with
        ⟨hno, hrun⟩ | ⟨hsat, hempty, hrun⟩ | ⟨hsat, hne, hrun⟩
      · rw [hrun]
        have hnone : modelsFound [searchOf r (t, ask)] = [] := modelsFound_none (.inl hno)
        refine ⟨_, hblocked.asked r ask (.inr hnone), fun st' hst => ?_⟩
        obtain rfl := Except.ok.inj hst
        refine ⟨?_, hlists.thisVars⟩
        rw [modelsFound_append, hnone, List.append_nil]
        exact hlists.found
      · rw [hrun]
        obtain rfl : vs = [] := hvs.symm.trans hempty
        refine ⟨_, hblocked.asked r ask (.inl rfl), fun st' hst => ?_⟩
        obtain rfl := Except.ok.inj hst
        have hnext := hlists.next (hfound hsat)
        exact ⟨hnext.found, fun _ => rfl⟩
      · rw [hvs] at hne hrun
        have hpos : ∀ v ∈ vs, 0 < v := fun v hv => ((hrt.vars vs hvars).2 v hv).2
        have hread : roundValue (asked t r ask) vs = project vs (searchOf r (t, ask)).model :=
          roundValue_asked (asked_maxVar ht.holds.off (.inl ht.holds.valid) hrt.constraint ask) hpos
        rw [hread, ← exclude_eq] at hrun
        rw [hrun]
        refine hagain _ _ ⟨(ht.asked hrt ask).withClause _, ?_, (asked_aux t r ask).trans haux, _,
          hblocked.next hne ht.plain.clause (hfound hsat), hlists.next (hfound hsat)⟩
        refine (ho'.withClause ?_).maxVar
        rw [exclude_eq]
        exact blockingClause_valid (fun v hv => ((hrt.vars vs hvars).2 v hv).1) _
  exact loop_of_round hpure hround trivial asks (fun _ _ => trivial) s _
    ⟨hs, hmax, rfl, [], .start vs s, rfl, fun h => absurd rfl h⟩

end Loop

section Enumeration
variable {s : Session} {w : Option (List ℤ)} {limit vars as con : RValue} {asks : List Oracle}

/-- A request for given variables is refused, or it projects onto them. -/
theorem solutionsHands_vars {r : Request} (hnull : vars ≠ .null)
    (h : solutionsHands s limit vars as con = .ok r) :
    ∃ ws, asVariables "vars" vars = .ok ws ∧ r.vars = some (unique ws) := by
  obtain ⟨lim, -, h⟩ := except_bind_ok.mp h
  cases hpend : s.handle.constraintPending with
  | true =>
    rw [hpend] at h
    cases h
  | false =>
    rw [hpend, if_neg Bool.false_ne_true] at h
    obtain ⟨as, -, h⟩ := except_bind_ok.mp h
    obtain ⟨_, -, h⟩ := except_bind_ok.mp h
    obtain ⟨con, -, h⟩ := except_bind_ok.mp h
    obtain ⟨vs, hvs, h⟩ := except_bind_ok.mp h
    obtain rfl := Except.ok.inj h
    rcases optionalHands_ok hvs with ⟨hv, -⟩ | ⟨ls, hls, -, rfl, -⟩
    · exact absurd hv hnull
    · exact ⟨ls, hls, rfl⟩

theorem newClauses_of_same {c : Call} (h : (step s c).2 = s) : newClauses s c = [] ∧ foundBy s c = [] := by
  rw [newClauses, foundBy, h, List.drop_length, List.drop_length]
  exact ⟨rfl, rfl⟩

/-- The clauses an enumeration adds rule out what its searches found, one each, and its report lists
that. -/
theorem solutions_blocks (hs : Awaiting s w) (hmax : s.solver.maxVar ≤ zusatMaxVar) (hnull : vars ≠ .null)
    (limit as con : RValue) (asks : List Oracle) :
    (∀ e, asVariables "vars" vars = .error e →
      newClauses s (.solutions limit vars as con asks) = []) ∧
    ∀ ws, asVariables "vars" vars = .ok ws →
      newClauses s (.solutions limit vars as con asks) = (if ws = [] then [] else
        (foundBy s (.solutions limit vars as con asks)).map (exclude (unique ws))) ∧
      ∀ out, (step s (.solutions limit vars as con asks)).1 = .ok (.solutions out) →
        out.assignments = (foundBy s (.solutions limit vars as con asks)).map (valuation (unique ws)) := by
  have hbind := run_bind_pure (satSolutions limit vars as con asks) CallResult.solutions s
  have hsnd : (step s (.solutions limit vars as con asks)).2 =
      ((satSolutions limit vars as con asks).run s).2 := congrArg Prod.snd hbind
  have hfst : (step s (.solutions limit vars as con asks)).1 =
      ((satSolutions limit vars as con asks).run s).1.map .solutions := congrArg Prod.fst hbind
  rw [run_satSolutions] at hsnd hfst
  cases hh : solutionsHands s limit vars as con with
  | error e =>
    rw [hh] at hsnd hfst
    obtain ⟨hnone, hfound⟩ := newClauses_of_same hsnd
    rw [hnone, hfound]
    refine ⟨fun _ _ => rfl, fun ws _ => ⟨by simp, fun out hout => ?_⟩⟩
    rw [hfst] at hout
    cases hout
  | ok r =>
    obtain ⟨hr, hidle, -⟩ := solutionsHands_ok hh
    obtain ⟨ws, hws, hrvars⟩ := solutionsHands_vars hnull hh
    have hw : w = none := by
      have hsome := hs.rests.pending.symm.trans hidle
      cases w with
      | none => rfl
      | some p => cases hsome
    subst hw
    obtain ⟨qs, hblocked, hlists⟩ := loop_blocks hs hmax hr hrvars asks
    rw [hh, run_bind, run_ofExcept_ok, andThen_ok, enumerate, run_bind_pure] at hsnd hfst
    have hnew : newClauses s (.solutions limit vars as con asks) =
        if unique ws = [] then [] else (modelsFound qs).map (exclude (unique ws)) := by
      rw [newClauses, hsnd, hblocked.clauses, List.drop_left]
    have hfound : foundBy s (.solutions limit vars as con asks) = modelsFound qs := by
      rw [foundBy, hsnd, hblocked.searches, List.drop_left]
    have hempty : unique ws = [] ↔ ws = [] := by
      simp only [List.eq_nil_iff_forall_not_mem, mem_unique]
    rw [hnew, hfound]
    refine ⟨fun e he => (by cases hws.symm.trans he), fun ws' hws' => ?_⟩
    obtain rfl := Except.ok.inj (hws.symm.trans hws')
    refine ⟨by simp only [hempty], fun out hout => ?_⟩
    rw [hfst] at hout
    rcases hloop : (satSolutionsLoop r.limit r.vars r.assumptions r.constraint asks
      ⟨[], [], .unknown, .limit⟩).run s with ⟨res, t⟩
    rw [hloop] at hout hlists
    cases res with
    | error e => cases hout
    | ok st =>
      obtain rfl := CallResult.solutions.inj (Except.ok.inj hout)
      obtain ⟨hst, hthis⟩ := hlists st rfl
      change (newSolutions st.found (if st.found.isEmpty then [] else st.thisVars) _ _).assignments = _
      rw [newSolutions_vars _ _ _ _ _ hthis, assignments_newSolutions fun b hb => ?_, hst, List.map_map]
      · exact List.map_congr_left fun β _ => zip_project _ β
      · rw [hst] at hb
        obtain ⟨β, -, rfl⟩ := List.mem_map.mp hb
        exact List.length_map _

/-- What an enumeration adds means that an assignment differs from every model found. -/
theorem models_solutions (hs : Awaiting s w) (hmax : s.solver.maxVar ≤ zusatMaxVar) (hnull : vars ≠ .null)
    (α : Assignment) : models α (newClauses s (.solutions limit vars as con asks)) = true ↔
      asserts s (.solutions limit vars as con asks) α := by
  obtain ⟨hrefused, hblocks⟩ := solutions_blocks hs hmax hnull limit as con asks
  rw [asserts]
  cases hws : asVariables "vars" vars with
  | error e =>
    rw [hrefused e hws]
    exact ⟨fun _ ws h => (by cases h), fun _ => rfl⟩
  | ok ws =>
    have hpos : ∀ v ∈ unique ws, 0 < v := fun v hv => (asVariables_valid hws v (mem_unique.mp hv)).2
    have hiff : ∀ β, satisfies α (exclude (unique ws) β) = true ↔ ∃ v ∈ ws, α v.natAbs ≠ β v.natAbs := by
      intro β
      rw [satisfies_exclude hpos]
      simp only [mem_unique]
    rw [(hblocks ws hws).1, models_iff]
    by_cases hne : ws = []
    · rw [if_pos hne]
      refine ⟨fun _ ws' h hne' => ?_, fun _ cl hcl => (by cases hcl)⟩
      exact absurd ((Except.ok.inj h).symm.trans hne) hne'
    · rw [if_neg hne, List.forall_mem_map]
      constructor
      · intro h ws' h' _ β hβ
        obtain rfl := Except.ok.inj h'
        exact (hiff β).mp (h β hβ)
      · exact fun h β hβ => (hiff β).mpr (h ws rfl hne β hβ)

end Enumeration

/-! ## The formula of a run -/

section Formula
variable {s : Session} {w : Option (List ℤ)} {M : Assignment → Prop}

theorem constrain_formula (hs : Awaiting s w) (v : RValue) :
    (step s (.constrain v)).2.solver.clauses = s.solver.clauses ∧
      (step s (.constrain v)).2.solver.clause = s.solver.clause := by
  rcases hs.constrain_cases v with ⟨e, -, hrun⟩ | ⟨p, -, hrun⟩
  · rw [show step s (.constrain v) = _ from run_unit hrun]
    exact ⟨rfl, rfl⟩
  · rw [show step s (.constrain v) = _ from run_unit hrun]
    exact ⟨rfl, rfl⟩

theorem quiet_formula {c : Call} (hc : quietCall c) (s : Session) :
    (step s c).2.solver.clauses = s.solver.clauses ∧ (step s c).2.solver.clause = s.solver.clause := by
  have hcore := core_step hc s
  exact ⟨congrArg (·.solver.clauses) hcore, congrArg (·.solver.clause) hcore⟩

theorem means_ordinary (hs : Awaiting s w) (hmax : s.solver.maxVar ≤ zusatMaxVar)
    (hM : Means (InAux s.aux) s.solver.clauses M) {c : Call} (hc : ordinary c) :
    Means (InAux (step s c).2.aux) (step s c).2.solver.clauses fun α => M α ∧ asserts s c α := by
  have hquiet : ¬isCardinality c → ((step s c).2.solver.clauses = s.solver.clauses ∧
      (step s c).2.solver.clause = s.solver.clause) → (∀ α, asserts s c α) →
      Means (InAux (step s c).2.aux) (step s c).2.solver.clauses fun α => M α ∧ asserts s c α :=
    fun hcard hsame hsays => means_same hM (step_aux_of_not_card hs.plain.ranges hcard)
      (adds_nil hs.plain.clause hsame) hsays
  have hnothing : ¬isCardinality c → Adds s (step s c).2 [] → (∀ α, asserts s c α) →
      Means (InAux (step s c).2.aux) (step s c).2.solver.clauses fun α => M α ∧ asserts s c α :=
    fun hcard hadds hsays => means_same hM (step_aux_of_not_card hs.plain.ranges hcard) hadds hsays
  cases c with
  | add x => exact means_add hs.plain hM x
  | cardinality b ls k e => exact means_cardinality hs.plain hM b ls k e
  | reserve n => exact hnothing (by simp [isCardinality]) (adds_reserve hs.plain n) fun _ => trivial
  | solve v ask => exact hnothing (by simp [isCardinality]) (adds_solve hs.plain v ask) fun _ => trivial
  | simplify ask =>
    exact hnothing (by simp [isCardinality]) (adds_simplify hs.plain ask) fun _ => trivial
  | solutions limit vars as con asks =>
    obtain ⟨cls, hadds⟩ := adds_solutions hs.plain limit vars as con asks
    have hnew : newClauses s (.solutions limit vars as con asks) = cls := by
      rw [newClauses, hadds.clauses, List.drop_left]
    refine (means_adds hM (step_aux_of_not_card hs.plain.ranges (by simp [isCardinality])) hadds
      (free_of_adds hs.plain hadds hc.2.2.2)).congr (fun _ => Iff.rfl) fun α => and_congr_right fun _ => ?_
    rw [← hnew]
    exact models_solutions hs hmax hc.2.2.2 α
  | constrain v =>
    exact hquiet (by simp [isCardinality]) (constrain_formula hs v) fun _ => trivial
  | _ => exact hquiet (by simp [isCardinality]) (quiet_formula (by trivial) s) fun _ => trivial

end Formula

/-! ## Whole sessions -/

theorem known_after {cs : List Call} (hs : Plain (after cs)) : (after cs).solver.maxVar ≤ zusatMaxVar :=
  (limited_after cs).2.factorOff hs.off.factor

/-- Over the variables that are not auxiliary, the clauses held by the solver mean what the calls say. -/
theorem means_after {cs : List Call} (hcs : ∀ c ∈ cs, ordinary c) :
    Means (InAux (after cs).aux) (after cs).solver.clauses (Meaning cs) := by
  induction cs using List.reverseRecOn with
  | nil =>
    refine (means_self []).congr (fun v => ⟨False.elim, not_inAux_nil v⟩) fun α => ?_
    refine ⟨fun _ before c later h => ?_, fun _ => rfl⟩
    simp at h
  | append_singleton cs c ih =>
    have hcs' : ∀ d ∈ cs, ordinary d := fun d hd => hcs d (List.mem_append_left _ hd)
    have hs := awaiting_after hcs'
    rw [after_snoc]
    exact (means_ordinary hs (known_after hs.plain) (ih hcs') (hcs c (by simp))).congr
      (fun _ => Iff.rfl) fun _ => meaning_snoc.symm

theorem modelling_ordinary {c : Call} (hc : modelling c) : ordinary c := by
  cases c with
  | solutions limit vars as con asks => exact ⟨⟨not_false, not_false⟩, not_false, not_false, hc⟩
  | add | cardinality | reserve | solve | simplify =>
    exact ⟨⟨not_false, not_false⟩, not_false, not_false, not_false⟩
  | _ => exact hc.elim

/-- An assignment of the variables that are not auxiliary extends to a model of every clause handed to
CaDiCaL exactly when it satisfies what the calls of the session say. The clauses an enumeration adds rule
out the models its searches found on the distinct variables it was given, one clause for each, and these
are the assignments it reports. -/
theorem session_conservative (cs : List Call) (hcs : ∀ c ∈ cs, modelling c) :
    (∀ α, (∃ β, AgreeOff (InAux (after cs).aux) α β ∧ models β (after cs).solver.clauses = true) ↔
      Meaning cs α) ∧
    ∀ before limit vars as con asks later, cs = before ++ .solutions limit vars as con asks :: later →
      let s := after before
      let c := Call.solutions limit vars as con asks
      (∀ e, asVariables "vars" vars = .error e → newClauses s c = []) ∧
      ∀ ws, asVariables "vars" vars = .ok ws →
        newClauses s c = (if ws = [] then [] else (foundBy s c).map (exclude (unique ws))) ∧
        ∀ out, (step s c).1 = .ok (.solutions out) →
          out.assignments = (foundBy s c).map (valuation (unique ws)) := by
  refine ⟨means_after fun c hc => modelling_ordinary (hcs c hc), ?_⟩
  rintro before limit vars as con asks later rfl
  have hs := awaiting_after fun c hc => modelling_ordinary (hcs c (List.mem_append_left _ hc))
  have hnull : modelling (.solutions limit vars as con asks) := hcs _ (by simp)
  exact solutions_blocks hs (known_after hs.plain) hnull limit as con asks

/-- One variable, given twice, and an enumeration that finds it true and goes no further. -/
def findsOne : Call := .solutions (.ints [10]) (.ints [1, 1]) (.ints []) .null [guess, guess]

theorem session_conservative_found :
    (∀ c ∈ [.reserve (.ints [1]), findsOne], modelling c) ∧
      Meaning [.reserve (.ints [1]), findsOne] (fun _ => false) ∧
      newClauses (after [.reserve (.ints [1])]) findsOne = [[-1]] := by
  have hcs : ∀ c ∈ [.reserve (.ints [1]), findsOne], modelling c := by
    simp [modelling, findsOne, RValue.ints]
  obtain ⟨hmeans, hblocks⟩ := session_conservative _ hcs
  obtain ⟨-, hnew⟩ := hblocks [.reserve (.ints [1])] _ _ _ _ _ [] rfl
  refine ⟨hcs, (hmeans _).mp ⟨_, fun _ _ => rfl, by decide +kernel⟩, ((hnew [1, 1] rfl).1).trans ?_⟩
  decide +kernel

end Session
end Zusat
