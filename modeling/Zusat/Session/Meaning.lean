import Zusat.Session.Auxiliaries

/-! # What a modelling session means

On a fresh solver with default options CaDiCaL takes every literal the package hands over. Each accepted
call then conjoins its own meaning to the formula over the variables that are not auxiliary, and nothing
else happens to it. -/

namespace Zusat
open Foundations Foundations.Prog
set_option autoImplicit false

namespace Session

/-- Adding, bounding, reserving, solving, simplifying, and enumerating over given variables. -/
def modelling : Call → Prop
  | .add _ => True
  | .cardinality .. => True
  | .reserve _ => True
  | .solve .. => True
  | .simplify _ => True
  | .solutions _ vars _ _ _ => vars ≠ .null
  | _ => False

/-- The models found by the searches of a call. -/
def foundBy (s : Session) (c : Call) : List Assignment :=
  modelsFound ((step s c).2.solver.searches.drop s.solver.searches.length)

/-- What a call says about an assignment: nothing if it was refused, except that an enumeration has
ruled out what it found before it was, as far as its variables can tell. -/
def asserts (s : Session) (c : Call) (α : Assignment) : Prop :=
  match c with
  | .add x => ∀ a cls, (step s c).1 = .ok a → addedClauses x = .ok cls →
      ∀ cl ∈ cls, satisfies α cl = true
  | .cardinality b literals k _ => ∀ a ls n, (step s c).1 = .ok a →
      asLiterals "literals" literals = .ok ls → checkBound k = .ok n → b.Holds (trueCount α ls) n
  | .solutions _ vars _ _ _ => ∀ ws, asVariables "vars" vars = .ok ws → ws ≠ [] →
      ∀ β ∈ foundBy s c, ∃ v ∈ ws, α v.natAbs ≠ β v.natAbs
  | _ => True

/-- What the calls of a run say together. -/
def Meaning (cs : List Call) (α : Assignment) : Prop :=
  ∀ before c later, cs = before ++ c :: later → asserts (after before) c α

theorem meaning_snoc {cs : List Call} {c : Call} {α : Assignment} :
    Meaning (cs ++ [c]) α ↔ Meaning cs α ∧ asserts (after cs) c α := by
  constructor
  · intro h
    exact ⟨fun before d later hsplit => h before d (later ++ [c]) (by rw [hsplit]; simp),
      h cs c [] rfl⟩
  · rintro ⟨hcs, hc⟩ before d later hsplit
    rcases split_snoc.mp hsplit with ⟨rfl, rfl, -⟩ | ⟨later', -, h⟩
    · exact hc
    · exact hcs before d later' h

/-! ## Default options -/

structure Plain (s : Session) : Prop where
  ranges : RangesKnown s
  off : FactorOff s.solver
  frozen : s.solver.opts "checkfrozen" = 0
  unchecked : s.solver.opts "check" = 0
  clause : s.solver.clause = []
  known : ∀ cl ∈ s.solver.clauses, ∀ l ∈ cl, l.natAbs ≤ s.solver.maxVar

theorem plain_new : Plain new :=
  ⟨rangesKnown_new, factorOff_init, by decide, by decide, rfl, by simp [new, Handle.new, Cadical.init]⟩

theorem Plain.valid {s : Session} (hs : Plain s) : s.solver.state.valid = true :=
  hs.ranges.settled.valid hs.unchecked

/-! ## What the calls add -/

/-- The clauses a call adds and the ranges it records. -/
structure Adds (s s' : Session) (cls : List (List ℤ)) : Prop where
  clauses : s'.solver.clauses = s.solver.clauses ++ cls
  clause : s'.solver.clause = []

theorem adds_nil {s s' : Session} (hc : s.solver.clause = [])
    (h : s'.solver.clauses = s.solver.clauses ∧ s'.solver.clause = s.solver.clause) :
    Adds s s' [] := ⟨by rw [h.1, List.append_nil], h.2.trans hc⟩

section Calls
variable {s : Session}

theorem adds_add (hs : Plain s) (x : RArg) :
    (∃ e, (step s (.add x)).1 = .error e ∧ (step s (.add x)).2 = s) ∨
      ∃ cls, (step s (.add x)).1 = .ok .unit ∧ addHands s.aux x = .ok cls ∧
        Adds s (step s (.add x)).2 cls := by
  rcases satAdd_cases hs.valid x with
    ⟨e, -, h⟩ | ⟨cls, hh, -, h⟩ | ⟨cls, done, q, l, e, hh, hstop, -, -, -⟩
  · have hstep : step s (.add x) = _ := run_unit h
    exact .inl ⟨e, by rw [hstep]; rfl, by rw [hstep]⟩
  · have hstep : step s (.add x) = _ := run_unit h
    obtain ⟨h1, h2⟩ := Cadical.foldl_takeClause_clause hs.clause cls
    refine .inr ⟨cls, by rw [hstep]; rfl, hh, ?_, ?_⟩
    · rw [hstep, solver, withHandle_handle, Handle.foldl_addedTo_solver, h2]
    · rw [hstep, solver, withHandle_handle, Handle.foldl_addedTo_solver, h1]
  · exact (not_stopsAt hs.off hs.frozen (addHands_ok hh).2.2 hstop).elim

theorem adds_cardinality (hs : Plain s) (b : Bound) (literals k e : RValue) :
    (∃ err, (step s (.cardinality b literals k e)).1 = .error err ∧
        (step s (.cardinality b literals k e)).2 = s) ∨
      ∃ a, (step s (.cardinality b literals k e)).1 = .ok .unit ∧
        cardHands s.aux s.solver.maxVar b literals k e = .ok a ∧
        Adds s (step s (.cardinality b literals k e)).2 a.2.2.clauses := by
  rcases satCardinality_cases hs.valid b literals k e with
    ⟨err, -, h⟩ | ⟨a, hh, -, h⟩ | ⟨a, done, q, l, err, hh, hstop, -, -, -⟩
  · have hstep : step s (.cardinality b literals k e) = _ := run_unit h
    exact .inl ⟨err, by rw [hstep]; rfl, by rw [hstep]⟩
  · have hstep : step s (.cardinality b literals k e) = _ := run_unit h
    have hsolver : (encodedBy s a).solver = a.2.2.clauses.foldl Cadical.takeClause s.solver := by
      rw [← Handle.foldl_addedTo_solver, encodedBy, recordAux]
      split <;> rfl
    obtain ⟨h1, h2⟩ := Cadical.foldl_takeClause_clause hs.clause a.2.2.clauses
    exact .inr ⟨a, by rw [hstep]; rfl, hh, by rw [hstep, hsolver, h2], by rw [hstep, hsolver, h1]⟩
  · exact (not_stopsAt hs.off hs.frozen (cardHands_ok hh).clauses hstop).elim

theorem reserved_clauses (h : Handle) (n : ℕ) : (Handle.reserved h n).solver.clauses =
    h.solver.clauses ∧ (Handle.reserved h n).solver.clause = h.solver.clause := by
  rw [Handle.reserved]
  split <;> exact ⟨rfl, rfl⟩

theorem adds_reserve (hs : Plain s) (n : RValue) : Adds s (step s (.reserve n)).2 [] := by
  rcases satReserve_cases hs.valid n with ⟨e, -, h⟩ | ⟨m, -, -, h⟩
  · rw [show step s (.reserve n) = _ from run_unit h]
    exact adds_nil hs.clause ⟨rfl, rfl⟩
  · rw [show step s (.reserve n) = _ from run_unit h]
    exact adds_nil hs.clause (reserved_clauses s.handle m)

theorem searched_clauses (h : Handle) (p : List ℤ) (ask : Oracle) :
    (searched h p ask).solver.clauses = h.solver.clauses ∧
      (searched h p ask).solver.clause = h.solver.clause := by
  have h1 := startSearch_clauses (assuming h.solver p)
  have h2 := assuming_clauses h.solver p
  exact ⟨h1.1.trans h2.1, h1.2.trans h2.2⟩

theorem adds_solve (hs : Plain s) (v : RValue) (ask : Oracle) :
    Adds s (step s (.solve v ask)).2 [] := by
  refine adds_nil hs.clause ?_
  rw [show (step s (.solve v ask)).2 = _ from congrArg Prod.snd (run_bind_pure _ _ s)]
  rcases satSolve_cases hs.valid v ask with
    ⟨e, -, h⟩ | ⟨p, -, -, -, -, h⟩ | ⟨p, q, l, r, e, -, -, -, -, -, -, h⟩ | ⟨-, -, t, h⟩ |
      ⟨p, e, -, -, -, -, h⟩
  · rw [h]
    exact ⟨rfl, rfl⟩
  · rw [h]
    split
    · exact searched_clauses s.handle p ask
    · rw [(looks_newSolution _).snd]
      exact searched_clauses s.handle p ask
  · rw [h]
    have h1 := stopAssume_clauses (assuming s.solver q) l
    have h2 := assuming_clauses s.solver q
    exact ⟨h1.1.trans h2.1, h1.2.trans h2.2⟩
  · rw [h]
    exact ⟨rfl, rfl⟩
  · rw [h]
    exact searched_clauses s.handle p ask

theorem adds_simplify (hs : Plain s) (ask : Oracle) : Adds s (step s (.simplify ask)).2 [] := by
  refine adds_nil hs.clause ?_
  rw [show (step s (.simplify ask)).2 = _ from congrArg Prod.snd (run_bind_pure _ _ s)]
  by_cases ha : s.solver.state = .adding
  · obtain ⟨t, h⟩ := Handle.run_zusatSimplify_adding ha ask
    rw [satSimplify, run_onHandle h]
    exact ⟨rfl, rfl⟩
  · have hcheck := Cadical.searchCheck_off (c := s.solver.limitRounds) hs.unchecked true ask
    rw [satSimplify, run_onHandle (Handle.run_zusatSimplify hs.valid ha hcheck)]
    exact startSearch_clauses s.solver.limitRounds

/-- Whatever an enumeration adds, it adds it whole. -/
theorem adds_solutions (hs : Plain s) (limit vars as con : RValue) (asks : List Oracle) :
    ∃ cls, Adds s (step s (.solutions limit vars as con asks)).2 cls := by
  rw [show (step s (.solutions limit vars as con asks)).2 = _ from
    congrArg Prod.snd (run_bind_pure _ _ s), run_satSolutions]
  cases hh : solutionsHands s limit vars as con with
  | error e => exact ⟨[], adds_nil hs.clause ⟨rfl, rfl⟩⟩
  | ok r =>
    obtain ⟨hr, -, -⟩ := solutionsHands_ok hh
    let K : Session → Prop := fun t => ∃ cls, Adds s t cls
    let J : Session → Enumeration → Prop := fun t _ => t.aux = s.aux ∧
      Cadical.Change (fun _ => True) (fun _ => True) (fun _ => False) s.solver t.solver ∧
      t.solver.state.valid = true ∧ K t
    have hkeep : ∀ t t' : Session, K t → (t'.solver.clauses = t.solver.clauses ∧
        t'.solver.clause = t.solver.clause) → K t' := by
      rintro t t' ⟨cls, hadds⟩ ⟨h1, h2⟩
      exact ⟨cls, h1.trans hadds.clauses, h2.trans hadds.clause⟩
    have hround : ∀ (ask : Oracle) again, True → (∀ t st, J t st → K ((again st).run t).2) →
        ∀ t st, J t st →
          K ((satSolutionsRound r.vars r.assumptions r.constraint ask again st).run t).2 := by
      rintro ask again - hagain t st ⟨haux, hchange, hvt, hK⟩
      have hrt : r.Checked t.aux := haux ▸ hr
      have hasked := hchange.trans (change_asked hchange.settled
        (fun p hp l hl => ⟨hrt.constraint p hp l hl, trivial⟩) (fun _ _ => trivial) ask)
      rcases round_cases hvt hrt ask st with
        ⟨e, t', hfail, hrun⟩ | ⟨-, -, hrun⟩ | ⟨-, -, -, -, hrun⟩ |
          ⟨-, -, vs, value, -, -, -, -, -, -, hrun⟩ |
          ⟨-, -, vs, value, q, l, e, -, -, hvalid, hstop, -, -, -⟩
      · rw [hrun]
        exact hkeep t t' hK ⟨hfail.clauses, hfail.clause⟩
      · rw [hrun]
        exact hkeep t _ hK (asked_clauses t r ask)
      · rw [hrun]
        exact hkeep t _ hK (asked_clauses t r ask)
      · rw [hrun]
        refine hagain _ _ ⟨(asked_aux t r ask).trans haux,
          hasked.trans (Cadical.change_takeClause hasked.settled fun _ _ => trivial), rfl, ?_⟩
        obtain ⟨cls, hadds⟩ := hkeep t _ hK (asked_clauses t r ask)
        refine ⟨cls ++ [blockingClause vs value], ?_, rfl⟩
        change (asked t r ask).solver.clauses ++ [(asked t r ask).solver.clause ++ _] = _
        rw [hadds.clauses, hadds.clause, List.nil_append, List.append_assoc]
      · have hoff := hs.off.change hasked not_false not_false
        have hfrozen := (hasked.opts "checkfrozen" not_false).trans hs.frozen
        refine (not_stopsAt hoff hfrozen (fun cl hcl => ?_) hstop).elim
        rw [List.mem_singleton.mp hcl]
        exact blockingClause_valid (fun v hv => (hvalid v hv).1) value
    have hloop := loop_of_round (J := J) (Q := fun p => K p.2) (fun _ _ h => h.2.2.2) hround trivial
      asks (fun _ _ => trivial) s ⟨[], [], .unknown, .limit⟩
      ⟨rfl, .refl hs.ranges.settled, hs.valid, [], adds_nil hs.clause ⟨rfl, rfl⟩⟩
    rw [run_bind, run_ofExcept_ok, andThen_ok, enumerate, run_bind_pure]
    exact hloop

theorem adds_step (hs : Plain s) {c : Call} (hc : modelling c) :
    ∃ cls, Adds s (step s c).2 cls := by
  cases c with
  | add x =>
    rcases adds_add hs x with ⟨e, -, h⟩ | ⟨cls, -, -, h⟩
    · exact ⟨[], adds_nil hs.clause (by rw [h]; exact ⟨rfl, rfl⟩)⟩
    · exact ⟨cls, h⟩
  | cardinality b ls k e =>
    rcases adds_cardinality hs b ls k e with ⟨err, -, h⟩ | ⟨a, -, -, h⟩
    · exact ⟨[], adds_nil hs.clause (by rw [h]; exact ⟨rfl, rfl⟩)⟩
    · exact ⟨_, h⟩
  | reserve n => exact ⟨[], adds_reserve hs n⟩
  | solve v ask => exact ⟨[], adds_solve hs v ask⟩
  | simplify ask => exact ⟨[], adds_simplify hs ask⟩
  | solutions limit vars as con asks => exact adds_solutions hs limit vars as con asks
  | _ => exact hc.elim

theorem modelling_sets {c : Call} (hc : modelling c) (n : String) : ¬setsOption c n := by
  cases c <;> first | exact not_false | exact hc.elim

theorem plain_step (hs : Plain s) {c : Call} (hc : modelling c) : Plain (step s c).2 := by
  have hchange := step_change hs.ranges.settled c
  obtain ⟨cls, hadds⟩ := adds_step hs hc
  refine ⟨rangesKnown_step hs.ranges c, hs.off.change hchange (modelling_sets hc _) (modelling_sets hc _),
    (hchange.opts _ (modelling_sets hc _)).trans hs.frozen,
    (hchange.opts _ (modelling_sets hc _)).trans hs.unchecked, hadds.clause, fun cl hcl l hl => ?_⟩
  obtain ⟨new, hnew, hfrom⟩ := hchange.clauses
  rw [hnew] at hcl
  rcases List.mem_append.mp hcl with hcl | hcl
  · exact le_trans (hs.known cl hcl l hl) hchange.maxVar
  · rcases hfrom cl hcl l hl with rfl | hmem | ⟨-, hle⟩
    · exact Nat.zero_le _
    · rw [hs.clause] at hmem
      cases hmem
    · exact hle

/-! ## What the calls mean -/

/-- What a call other than a bound hands over avoids the auxiliary variables. -/
theorem free_of_adds (hs : Plain s) {c : Call} {cls : List (List ℤ)}
    (hadds : Adds s (step s c).2 cls) (hd : ¬defaultProjection c) : Avoids cls (InAux s.aux) := by
  obtain ⟨new, hnew, hfrom⟩ := (step_change_own hs.ranges c).clauses
  rw [hadds.clauses] at hnew
  obtain rfl : cls = new := List.append_cancel_left hnew
  intro cl hcl l hl
  rcases hfrom cl hcl l hl with rfl | hmem | ⟨h, -⟩
  · exact hs.ranges.not_inAux_zero
  · rw [hs.clause] at hmem
    cases hmem
  · exact h.resolve_left hd

variable {M : Assignment → Prop}

theorem means_adds (hM : Means (InAux s.aux) s.solver.clauses M) {s' : Session}
    (haux : s'.aux = s.aux) {cls : List (List ℤ)} (hadds : Adds s s' cls)
    (hfree : Avoids cls (InAux s.aux)) :
    Means (InAux s'.aux) s'.solver.clauses fun α => M α ∧ models α cls = true := by
  rw [haux, hadds.clauses]
  have hignores : Ignores (fun α => models α cls = true) (InAux s.aux) := by
    intro α β hαβ hα
    rwa [models_of_avoids hfree hαβ]
  exact (conservative_append hM (means_self cls) (fun _ _ _ _ => not_false) hignores).congr
    (fun _ => or_iff_left not_false) (fun _ => Iff.rfl)

theorem means_same (hM : Means (InAux s.aux) s.solver.clauses M) {s' : Session}
    (haux : s'.aux = s.aux) (hadds : Adds s s' []) {P : Assignment → Prop} (hP : ∀ α, P α) :
    Means (InAux s'.aux) s'.solver.clauses fun α => M α ∧ P α :=
  (means_adds hM haux hadds (fun _ h => absurd h List.not_mem_nil)).congr (fun _ => Iff.rfl)
    (fun α => and_congr_right fun _ => ⟨fun _ => hP α, fun _ => rfl⟩)

theorem inAux_recordAux {t : Session} {floor top v : ℕ} :
    InAux (recordAux floor top t).aux v ↔ InAux t.aux v ∨ inBlock floor top v := by
  rw [recordAux]
  split
  · constructor
    · rintro ⟨r, hr, hv⟩
      rcases List.mem_append.mp hr with hr | hr
      · exact .inl ⟨r, hr, hv⟩
      · rw [List.mem_singleton.mp hr] at hv
        exact .inr hv
    · rintro (⟨r, hr, hv⟩ | hv)
      · exact ⟨r, List.mem_append_left _ hr, hv⟩
      · exact ⟨_, List.mem_append_right _ (List.mem_singleton.mpr rfl), hv⟩
  · next h =>
    refine ⟨.inl, fun hv => hv.resolve_right fun hb => h (lt_of_lt_of_le hb.1 hb.2)⟩

theorem means_cardinality (hs : Plain s) (hM : Means (InAux s.aux) s.solver.clauses M) (b : Bound)
    (literals k e : RValue) :
    Means (InAux (step s (.cardinality b literals k e)).2.aux)
      (step s (.cardinality b literals k e)).2.solver.clauses
      fun α => M α ∧ asserts s (.cardinality b literals k e) α := by
  rcases adds_cardinality hs b literals k e with ⟨err, herr, h⟩ | ⟨a, hok, hh, hadds⟩
  · rw [h]
    refine hM.congr (fun _ => Iff.rfl) fun α => ⟨fun h => ⟨h, fun x ls n hx => ?_⟩, And.left⟩
    rw [herr] at hx
    cases hx
  · have hplan := cardHands_ok hh
    have hfree := (checkNotAux_ok_iff hs.ranges.increasing _ _).mp hplan.free
    have hmax : s.solver.maxVar ≤ auxFloor s.solver.maxVar a.1 := le_max_left ..
    have havoid : Avoids s.solver.clauses (inBlock (auxFloor s.solver.maxVar a.1) a.2.2.top) := by
      intro cl hcl l hl hb
      have := hs.known cl hcl l hl
      have := hb.1
      omega
    have hignores := ignores_of_lits hfree fun n => b.Holds n a.2.1
    rw [hadds.clauses]
    refine (conservative_append hM hplan.encodes.means havoid hignores).congr (fun v => ?_)
      (fun α => and_congr_right fun _ => ?_)
    · rw [step_cardinality]
      rcases satCardinality_cases hs.valid b literals k e with
        ⟨err, hh', -⟩ | ⟨a', hh', -, hrun⟩ | ⟨a', done, q, l, err, hh', hstop, -⟩
      · rw [hh] at hh'
        cases hh'
      · rw [hh] at hh'
        obtain rfl := Except.ok.inj hh'
        rw [hrun, encodedBy]
        exact (inAux_recordAux
          (t := s.withHandle (a.2.2.clauses.foldl Handle.addedTo s.handle))).symm
      · exact (not_stopsAt hs.off hs.frozen (cardHands_ok hh').clauses hstop).elim
    · constructor
      · intro h x ls n _ hls hn
        obtain rfl : ls = a.1 := Except.ok.inj (hls.symm.trans hplan.lits)
        obtain rfl : n = a.2.1 := Except.ok.inj (hn.symm.trans hplan.bound)
        exact h
      · exact fun h => h _ a.1 a.2.1 hok hplan.lits hplan.bound

theorem means_add (hs : Plain s) (hM : Means (InAux s.aux) s.solver.clauses M) (x : RArg) :
    Means (InAux (step s (.add x)).2.aux) (step s (.add x)).2.solver.clauses
      fun α => M α ∧ asserts s (.add x) α := by
  have haux : (step s (.add x)).2.aux = s.aux :=
    step_aux_of_not_card hs.ranges (by simp [isCardinality])
  rcases adds_add hs x with ⟨err, herr, h⟩ | ⟨cls, hok, hh, hadds⟩
  · refine means_same hM haux (adds_nil hs.clause (by rw [h]; exact ⟨rfl, rfl⟩)) ?_
    intro α a cls ha
    rw [herr] at ha
    cases ha
  · refine (means_adds hM haux hadds (free_of_adds hs hadds not_false)).congr
      (fun _ => Iff.rfl) fun α => and_congr_right fun _ => ?_
    rw [models_iff]
    constructor
    · intro h a cls' _ hcls'
      obtain rfl := Except.ok.inj (hcls'.symm.trans (addHands_ok hh).1)
      exact h
    · exact fun h => h _ cls hok (addHands_ok hh).1

end Calls

end Session
end Zusat
