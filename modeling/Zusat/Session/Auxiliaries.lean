import Zusat.Session.Invariants

/-! # Where auxiliary variables occur

With `factor` and `factorcheck` at their defaults, CaDiCaL stops a literal only when it is molten. Then
no auxiliary variable is ever left in a clause that is begun but not terminated, and what a later call
completes is its own. -/

namespace Zusat
open Foundations Foundations.Prog
set_option autoImplicit false

namespace Session

/-- The call sets neither `factor` nor `factorcheck`. -/
def leavesFactor (c : Call) : Prop := ¬setsOption c "factor" ∧ ¬setsOption c "factorcheck"

/-- The literal is known and none of the auxiliary ones. -/
def Own (s : Session) (l : ℤ) : Prop := ¬InAux s.aux l.natAbs ∧ l.natAbs ≤ s.solver.maxVar

structure FactorOff (c : Cadical) : Prop where
  factor : c.opts "factor" = 0
  factorcheck : c.opts "factorcheck" = 1
  ervars : ∀ v, c.ervars v = false

theorem factorOff_init : FactorOff Cadical.init := ⟨by decide, by decide, fun _ => rfl⟩

theorem FactorOff.change {K L : ℤ → Prop} {N : String → Prop} {c c' : Cadical} (h : FactorOff c)
    (hchange : Cadical.Change K L N c c') (hf : ¬N "factor") (hk : ¬N "factorcheck") :
    FactorOff c' where
  factor := (hchange.opts _ hf).trans h.factor
  factorcheck := (hchange.opts _ hk).trans h.factorcheck
  ervars v := by rw [hchange.ervars hf h.factor, h.ervars]

theorem FactorOff.addable {c : Cadical} (h : FactorOff c) {l : ℤ} (hl : ValidLit l) :
    c.addable l = true := by
  have hd : c.needsDeclared = false := by
    rw [Cadical.needsDeclared, h.factor, h.factorcheck]
    rfl
  rw [Cadical.addable, hd, usable_of_valid hl (h.ervars _)]
  rfl

theorem takes_of_valid {c : Cadical} (hoff : FactorOff c) (hfrozen : c.opts "checkfrozen" = 0)
    {l : ℤ} (hl : ValidLit l) : c.takes l = true := by
  rw [Cadical.takes, hoff.addable hl, Cadical.molten, hfrozen]
  rfl

theorem not_stopsAt {c : Cadical} (hoff : FactorOff c) (hfrozen : c.opts "checkfrozen" = 0)
    {cls done : List (List ℤ)} {q : List ℤ} {l : ℤ} (hcls : ∀ cl ∈ cls, ∀ l ∈ cl, ValidLit l)
    (h : StopsAt c cls done q l) : False := by
  obtain ⟨r, rest, hsplit⟩ := h.split
  have hl : ValidLit l := hcls (q ++ l :: r) (by rw [hsplit]; simp) l (by simp)
  have hstop := h.stop
  rw [takes_of_valid hoff hfrozen hl] at hstop
  cases hstop

/-! ## A blocking clause over all variables -/

section Blocking
variable {s : Session} {r : Request} {ask : Oracle}

theorem change_armed {K L : ℤ → Prop} {N : String → Prop} (hs : s.solver.Settled)
    {con : Option (List ℤ)} (hcon : ∀ p, con = some p → ∀ l ∈ p, ValidLit l ∧ L l) :
    Cadical.Change K L N s.solver (armed s con).solver := by
  cases con with
  | none => exact .refl hs
  | some p =>
    exact Cadical.change_takeConstraint hs (fun l hl => (hcon p rfl l hl).1.1)
      (fun l hl => (hcon p rfl l hl).2)

theorem change_asked {K L : ℤ → Prop} {N : String → Prop} (hs : s.solver.Settled)
    (hcon : ∀ p, r.constraint = some p → ∀ l ∈ p, ValidLit l ∧ L l)
    (has : ∀ l ∈ r.assumptions, L l) (ask : Oracle) :
    Cadical.Change K L N s.solver (asked s r ask).solver := by
  have harmed := change_armed (K := K) (N := N) hs hcon
  have hassumed := harmed.trans (Cadical.change_foldl (f := Cadical.pushAssumption)
    (fun _ _ hl => Cadical.change_pushAssumption hl) harmed.settled has)
  exact hassumed.trans (Cadical.change_afterSearch false ask)

theorem startSearch_opts (c : Cadical) :
    c.startSearch.opts = c.opts ∧ c.startSearch.maxVar = c.maxVar := by
  rw [Cadical.startSearch, Cadical.updateMoltenLiterals]
  split <;> exact ⟨rfl, rfl⟩

/-- After a search the frozen check stops every variable known by then. -/
theorem afterSearch_molten {c : Cadical} {pre : Bool} (hf : c.opts "factor" = 0)
    (hfrozen : c.opts "checkfrozen" ≠ 0) {v : ℕ} (hpos : 0 < v)
    (hle : v ≤ (Cadical.afterSearch pre ask c).maxVar) :
    (Cadical.afterSearch pre ask c).moltentab v = true := by
  have hmax : (Cadical.afterSearch pre ask c).maxVar = c.maxVar := by
    change c.startSearch.maxVar + c.startSearch.extensionOf _ = _
    rw [Cadical.extensionOf_eq_zero (by rw [(startSearch_opts c).1, hf]), (startSearch_opts c).2,
      Nat.add_zero]
  change c.startSearch.moltentab v = true
  rw [Cadical.startSearch, Cadical.updateMoltenLiterals, if_pos (by exact hfrozen)]
  rw [hmax] at hle
  change (c.moltentab v || (decide (0 < v) && decide (v ≤ c.maxVar))) = true
  simp [hpos, hle]

theorem blockingClause_head {v : ℤ} {vs : List ℤ} {value : List Bool} {x : ℤ} {cl : List ℤ}
    (h : blockingClause (v :: vs) value = x :: cl) : x.natAbs = v.natAbs := by
  cases value with
  | nil => cases h
  | cons b value =>
    rw [← (List.cons.inj h).1]
    cases b with
    | false => rfl
    | true => exact Int.natAbs_neg v

theorem seqLen_eq {n : ℕ} {v : ℤ} {vs : List ℤ} (h : seqLen n = v :: vs) : v = 1 ∧ 1 ≤ n := by
  cases n with
  | zero => cases h
  | succ n =>
    rw [seqLen, List.range_succ_eq_map, List.map_cons] at h
    exact ⟨(List.cons.inj h).1.symm, Nat.succ_le_succ (Nat.zero_le n)⟩

/-- A blocking clause over all known variables that is stopped is stopped at its first literal. -/
theorem stops_at_first (hs : s.solver.Settled) (hr : r.Checked s.aux)
    (hoff : FactorOff s.solver) (hdefault : r.vars = none) {vs : List ℤ} {value : List Bool}
    (hvs : vs = roundVars r (asked s r ask)) (hvalid : ∀ v ∈ vs, ValidLit v ∧ 0 < v)
    {q : List ℤ} {l : ℤ} (hstop : StopsAt (asked s r ask).solver [blockingClause vs value] [] q l) :
    q = [] := by
  have hchange := change_asked (K := fun _ => True) (L := fun _ => True) (N := fun _ => False) hs
    (fun p hp l hl => ⟨hr.constraint p hp l hl, trivial⟩) (fun _ _ => trivial) ask
  have hoff' := hoff.change hchange not_false not_false
  obtain ⟨rest, tail, hsplit⟩ := hstop.split
  have hblock : blockingClause vs value = q ++ l :: rest := (List.cons.inj hsplit).1
  have hl : ValidLit l :=
    blockingClause_valid (fun v hv => (hvalid v hv).1) value l (by rw [hblock]; simp)
  have hmolten : (asked s r ask).solver.molten l = true := by
    have := hstop.stop
    rw [Cadical.takes, hoff'.addable hl, Bool.true_and] at this
    simpa using this
  cases q with
  | nil => rfl
  | cons x q =>
    -- the first literal is that of variable 1, which is molten too
    rw [roundVars, hdefault, Option.getD_none] at hvs
    cases vs with
    | nil => cases hblock
    | cons v vs =>
      obtain ⟨hv1, hn⟩ := seqLen_eq hvs.symm
      have hx := blockingClause_head hblock
      rw [hv1] at hx
      obtain ⟨hfrozen, -⟩ := Bool.and_eq_true_iff.mp hmolten
      have htakes := hstop.before x (List.mem_cons_self ..)
      have hxm : (asked s r ask).solver.molten x = true := by
        refine Bool.and_eq_true_iff.mpr ⟨hfrozen, ?_⟩
        rw [hx]
        refine afterSearch_molten ?_ ?_ Nat.one_pos hn
        · have h := hoff'.factor
          change (assuming (armed s r.constraint).solver r.assumptions).startSearch.opts _ = 0 at h
          rwa [(startSearch_opts _).1] at h
        · have h := bne_iff_ne.mp hfrozen
          change (assuming (armed s r.constraint).solver r.assumptions).startSearch.opts _ ≠ 0 at h
          rwa [(startSearch_opts _).1] at h
      rw [Cadical.takes, hxm] at htakes
      simp at htakes

end Blocking

/-- An enumeration over all known variables leaves no clause begun that was not begun before. -/
theorem solutions_clause {s : Session} (hv : s.solver.state.valid = true) (hoff : FactorOff s.solver)
    (limit assumptions constraint : RValue) (asks : List Oracle) :
    ((satSolutions limit .null assumptions constraint asks).run s).2.solver.clause = [] ∨
      ((satSolutions limit .null assumptions constraint asks).run s).2.solver.clause =
        s.solver.clause := by
  rw [run_satSolutions]
  cases hh : solutionsHands s limit .null assumptions constraint with
  | error e => exact .inr rfl
  | ok r =>
    obtain ⟨hr, -, hnull⟩ := solutionsHands_ok hh
    have hdefault := hnull.mpr rfl
    let J : Session → Enumeration → Prop := fun t _ => t.aux = s.aux ∧
      Cadical.Change (fun _ => True) (fun _ => True) (fun _ => False) s.solver t.solver ∧
      t.solver.state.valid = true ∧ (t.solver.clause = [] ∨ t.solver.clause = s.solver.clause)
    let Q : Except RError Enumeration × Session → Prop := fun p =>
      p.2.solver.clause = [] ∨ p.2.solver.clause = s.solver.clause
    have hround : ∀ (ask : Oracle) again, True → (∀ t st, J t st → Q ((again st).run t)) → ∀ t st,
        J t st → Q ((satSolutionsRound r.vars r.assumptions r.constraint ask again st).run t) := by
      rintro ask again - hagain t st ⟨haux, hchange, hvt, hclause⟩
      have hrt : r.Checked t.aux := haux ▸ hr
      have hofft := hoff.change hchange not_false not_false
      have hask := (asked_clauses t r ask).2
      rcases round_cases hvt hrt ask st with
        ⟨e, t', hfail, hrun⟩ | ⟨-, -, hrun⟩ | ⟨-, -, -, -, hrun⟩ |
          ⟨-, -, vs, value, -, -, -, -, -, -, hrun⟩ |
          ⟨-, -, vs, value, q, l, e, hvs, -, hvalid, hstop, -, -, hrun⟩
      · rw [hrun]
        exact hclause.imp (fun h => hfail.clause.trans h) (fun h => hfail.clause.trans h)
      · rw [hrun]
        exact hclause.imp hask.trans hask.trans
      · rw [hrun]
        exact hclause.imp hask.trans hask.trans
      · rw [hrun]
        refine hagain _ _ ⟨(asked_aux t r ask).trans haux, ?_, rfl, .inl rfl⟩
        have h1 := hchange.trans (change_asked (.inl hvt)
          (fun p hp l hl => ⟨hrt.constraint p hp l hl, trivial⟩) (fun _ _ => trivial) ask)
        exact h1.trans (Cadical.change_takeClause h1.settled fun _ _ => trivial)
      · obtain rfl := stops_at_first (.inl hvt) hrt hofft hdefault hvs hvalid hstop
        rw [hrun]
        have hstopped : ((asked t r ask).withHandle
            (stoppedAt (asked t r ask).handle [] [] l)).solver.clause = t.solver.clause :=
          (Cadical.stopAdd_clauses _ l).2.trans hask
        exact hclause.imp hstopped.trans hstopped.trans
    have hloop := loop_of_round (J := J) (Q := Q) (fun _ _ h => h.2.2.2) hround trivial asks
      (fun _ _ => trivial) s ⟨[], [], .unknown, .limit⟩ ⟨rfl, .refl (.inl hv), hv, .inr rfl⟩
    rw [run_bind, run_ofExcept_ok, andThen_ok, enumerate, run_bind_pure]
    exact hloop

/-! ## What every call keeps -/

structure Clean (s : Session) : Prop where
  ranges : RangesKnown s
  off : FactorOff s.solver
  clause : ∀ l ∈ s.solver.clause, Own s l
  assumptions : ∀ l ∈ s.solver.assumptions, Own s l
  constraint : ∀ l ∈ s.solver.constraint, Own s l
  searches : ∀ q ∈ s.solver.searches, ∀ l ∈ q.assumptions ++ q.constraint, Own s l

theorem clean_new : Clean new :=
  ⟨rangesKnown_new, factorOff_init, by simp [new, Handle.new, Cadical.init],
    by simp [new, Handle.new, Cadical.init], by simp [new, Handle.new, Cadical.init],
    by simp [new, Handle.new, Cadical.init]⟩

def isCardinality (c : Call) : Prop := ∃ b ls k e, c = .cardinality b ls k e

section Step
variable {s : Session}

theorem own_step (hs : RangesKnown s) {l : ℤ} (h : Own s l) (c : Call) : Own (step s c).2 l :=
  ⟨not_inAux_step hs h.1 (le_trans h.2 (le_max_right ..)) c,
    le_trans h.2 (step_change hs.settled c).maxVar⟩

theorem own_zero (hs : RangesKnown s) : Own s 0 := ⟨hs.not_inAux_zero, Nat.zero_le _⟩

/-- The literals of an encoding are free or new. -/
theorem CardPlan.not_inAux (hs : RangesKnown s) {b : Bound} {literals k : RValue}
    {a : List ℤ × ℕ × Encoded} (h : CardPlan s.aux s.solver.maxVar b literals k a) :
    ∀ cl ∈ a.2.2.clauses, ∀ l ∈ cl, ¬InAux s.aux l.natAbs := by
  intro cl hcl l hl hin
  rcases (h.encodes.lits cl hcl l hl).2 with ⟨x, hx, hxl⟩ | hb
  · exact (checkNotAux_ok_iff hs.increasing _ _).mp h.free x hx (hxl ▸ hin)
  · have := (hs.inAux_le hin).2
    have hmax : s.solver.maxVar ≤ auxFloor s.solver.maxVar a.1 := le_max_left ..
    have := hb.1
    omega

/-- Whatever a call hands over is no auxiliary variable so far, except in the clauses of an enumeration
over all variables. -/
theorem step_change_own (hs : RangesKnown s) (c : Call) :
    Cadical.Change (fun l => defaultProjection c ∨ ¬InAux s.aux l.natAbs)
      (fun l => ¬InAux s.aux l.natAbs ∧ ¬isCardinality c) (setsOption c) s.solver
      (step s c).2.solver := by
  by_cases hcard : isCardinality c
  · obtain ⟨b, ls, k, e, rfl⟩ := hcard
    rw [step_cardinality]
    exact change_satCardinality hs.settled _ _ fun a hh cl hcl l hl =>
      .inr ((cardHands_ok hh).not_inAux hs cl hcl l hl)
  · refine (step_keeps (fun lits arg h l hl => ⟨hs.covers lits arg h l hl, hcard⟩)
      (fun l hl => ⟨.inr hl.1, .inr ?_⟩) (fun hd _ => .inl hd)
      (fun b ls k e h => hcard ⟨b, ls, k, e, h⟩) hs.settled).2
    rw [Int.natAbs_neg]
    exact hl.1

theorem step_aux_of_not_card (hs : RangesKnown s) {c : Call} (hcard : ¬isCardinality c) :
    (step s c).2.aux = s.aux := by
  rcases step_aux hs c with ⟨haux, -⟩ | ⟨r, -, -, -, hr⟩
  · exact haux
  · obtain ⟨b, ls, k, e, a, hc, -⟩ := (hr r.first).mp ⟨le_rfl, r.first_le_last⟩
    exact absurd ⟨b, ls, k, e, hc⟩ hcard

theorem own_of_from (hs : RangesKnown s) {c : Call} {old : List ℤ} (hold : ∀ l ∈ old, Own s l) {l : ℤ}
    (h : Cadical.From (fun l => ¬InAux s.aux l.natAbs ∧ ¬isCardinality c) old
      (step s c).2.solver.maxVar l) : Own (step s c).2 l := by
  rcases h with rfl | hmem | ⟨⟨hfree, hcard⟩, hle⟩
  · exact own_zero (rangesKnown_step hs c)
  · exact own_step hs (hold l hmem) c
  · exact ⟨by rwa [step_aux_of_not_card hs hcard], hle⟩

/-- A call that introduces variables has completed every clause it began. -/
theorem clause_of_introducedBy (hs : RangesKnown s) {c : Call} {v : ℕ} (h : IntroducedBy s c v) :
    (step s c).2.solver.clause = [] := by
  have hv : s.solver.state.valid = true :=
    hs.settled.valid_or_solving.resolve_right fun hsolving => not_introduced_solving hsolving h
  obtain ⟨b, ls, k, e, a, rfl, hok, hh, ⟨⟨cl, hcl, -⟩, -⟩⟩ := h
  rw [step_cardinality]
  rcases satCardinality_cases hv b ls k e with
    ⟨err, hh', -⟩ | ⟨a', hh', -, hrun⟩ | ⟨a', done, q, l, err, -, -, -, -, hrun⟩
  · rw [hh] at hh'
    cases hh'
  · rw [hh] at hh'
    obtain rfl := Except.ok.inj hh'
    rw [hrun, encodedBy]
    have hclause : ∀ cls : List (List ℤ), cls ≠ [] →
        (cls.foldl Handle.addedTo s.handle).solver.clause = [] := by
      intro cls hne
      cases cls with
      | nil => exact absurd rfl hne
      | cons x cls =>
        rw [Handle.foldl_addedTo_solver]
        exact (Cadical.foldl_takeClause_clause (c := s.solver.takeClause x) rfl cls).1
    rw [recordAux]
    split <;> exact hclause _ (List.ne_nil_of_mem hcl)
  · rw [step, exported, run_bind, hrun] at hok
    cases hok

theorem clean_clause (hs : Clean s) (c : Call) :
    ∀ l ∈ (step s c).2.solver.clause, Own (step s c).2 l := by
  intro l hl
  have hold : l ∈ s.solver.clause → Own (step s c).2 l := fun h =>
    own_step hs.ranges (hs.clause l h) c
  rcases hs.ranges.settled.valid_or_solving with hv | hsolving
  swap
  · exact hold (by rwa [(step_stands hsolving c).2] at hl)
  rcases step_aux hs.ranges c with ⟨haux, -⟩ | ⟨r, -, -, -, hr⟩
  · by_cases hd : defaultProjection c
    · cases c with
      | solutions limit vars as con asks =>
        obtain rfl : vars = .null := hd
        have hrun : (step s (.solutions limit .null as con asks)).2 =
            ((satSolutions limit .null as con asks).run s).2 :=
          congrArg Prod.snd (run_bind_pure _ _ s)
        rcases solutions_clause hv hs.off limit as con asks with h | h
        · rw [hrun, h] at hl
          cases hl
        · exact hold (by rwa [hrun, h] at hl)
      | _ => exact hd.elim
    · rcases (step_change_own hs.ranges c).clause l hl with rfl | hmem | ⟨hK, hle⟩
      · exact own_zero (rangesKnown_step hs.ranges c)
      · exact hold hmem
      · exact ⟨haux ▸ hK.resolve_left hd, hle⟩
  · rw [clause_of_introducedBy hs.ranges ((hr r.first).mp ⟨le_rfl, r.first_le_last⟩)] at hl
    cases hl

theorem clean_step (hs : Clean s) {c : Call} (hc : leavesFactor c) : Clean (step s c).2 where
  ranges := rangesKnown_step hs.ranges c
  off := hs.off.change (step_change hs.ranges.settled c) hc.1 hc.2
  clause := clean_clause hs c
  assumptions l hl := own_of_from hs.ranges hs.assumptions ((step_change_own hs.ranges c).assumptions l hl)
  constraint l hl := own_of_from hs.ranges hs.constraint ((step_change_own hs.ranges c).constraint l hl)
  searches := by
    obtain ⟨new, hnew, hfrom⟩ := (step_change_own hs.ranges c).searches
    intro q hq l hl
    rw [hnew] at hq
    rcases List.mem_append.mp hq with hq | hq
    · exact own_step hs.ranges (hs.searches q hq l hl) c
    · rcases List.mem_append.mp hl with hl | hl
      · exact own_of_from hs.ranges hs.assumptions ((hfrom q hq).1 l hl)
      · exact own_of_from hs.ranges hs.constraint ((hfrom q hq).2 l hl)

end Step

theorem clean_after {cs : List Call} (hcs : ∀ c ∈ cs, leavesFactor c) : Clean (after cs) := by
  have hall : Every step (fun _ c _ => leavesFactor c) new cs :=
    every_of_forall step (fun c hc _ _ => hcs c hc) new
  exact run_invariant step (I := Clean) (fun _ c h hc => clean_step h hc) clean_new hall

theorem own_run {s : Session} (hs : RangesKnown s) {l : ℤ} (h : Own s l) (cs : List Call) :
    Own (run step s cs) l := by
  have hall : Every step (fun _ _ _ => True) s cs :=
    every_of_forall step (fun _ _ _ _ => trivial) s
  exact (run_invariant step (I := fun s => RangesKnown s ∧ Own s l)
    (fun _ c h _ => ⟨rangesKnown_step h.1 c, own_step h.1 h.2 c⟩) ⟨hs, h⟩ hall).2

/-- The clauses a call has handed to CaDiCaL. -/
def newClauses (s : Session) (c : Call) : List (List ℤ) :=
  (step s c).2.solver.clauses.drop s.solver.clauses.length

/-- A variable introduced anywhere in a run occurs only in clauses of the call that introduced it, or
in those of an enumeration over all variables. -/
theorem introduced_occurs {before later : List Call} {c : Call}
    (hcs : ∀ d ∈ before ++ c :: later, leavesFactor d) {cl : List ℤ}
    (hcl : cl ∈ newClauses (after before) c) {l : ℤ} (hl : l ∈ cl)
    (hin : Introduced (before ++ c :: later) l.natAbs) :
    defaultProjection c ∨ IntroducedBy (after before) c l.natAbs := by
  have hs := clean_after fun d hd => hcs d (List.mem_append_left _ hd)
  have hfinal : Own (step (after before) c).2 l → False := by
    intro hown
    have h := own_run (rangesKnown_step hs.ranges c) hown later
    rw [← inAux_iff_introduced, after, run_append] at hin
    exact h.1 hin
  obtain ⟨new, hnew, hfrom⟩ := (step_change_own hs.ranges c).clauses
  rw [newClauses, hnew, List.drop_left] at hcl
  rcases hfrom cl hcl l hl with rfl | hmem | ⟨hd | hfree, hle⟩
  · exact (hfinal (own_zero (rangesKnown_step hs.ranges c))).elim
  · exact (hfinal (own_step hs.ranges (hs.clause l hmem) c)).elim
  · exact .inl hd
  · by_cases hnow : InAux (step (after before) c).2.aux l.natAbs
    · rcases step_aux hs.ranges c with ⟨haux, -⟩ | ⟨r, haux, -, -, hr⟩
      · exact absurd (haux ▸ hnow) hfree
      · rw [haux] at hnow
        obtain ⟨x, hx, hv⟩ := hnow
        rcases List.mem_append.mp hx with hx | hx
        · exact absurd ⟨x, hx, hv⟩ hfree
        · rw [List.mem_singleton.mp hx] at hv
          exact .inr ((hr _).mp hv)
    · exact (hfinal ⟨hnow, hle⟩).elim

/-- The ranges of a run, and where the variables in them occur. -/
theorem auxiliary_ranges (cs : List Call) (hcs : ∀ c ∈ cs, leavesFactor c) :
    Increasing (after cs).aux ∧
    (∀ r ∈ (after cs).aux, r.first ≤ r.last ∧ r.last ≤ (after cs).solver.maxVar ∧
      ∃ before c later, cs = before ++ c :: later ∧
        ∀ v, r.first ≤ v ∧ v ≤ r.last ↔ IntroducedBy (after before) c v) ∧
    (∀ lits arg, (∃ e, checkNotAux (after cs).aux lits arg = .error e) ↔
      ∃ l ∈ lits, Introduced cs l.natAbs) ∧
    (∀ before c later, cs = before ++ c :: later → ∀ cl ∈ newClauses (after before) c, ∀ l ∈ cl,
      Introduced cs l.natAbs → defaultProjection c ∨ IntroducedBy (after before) c l.natAbs) ∧
    (∀ q ∈ (after cs).solver.searches, ∀ l ∈ q.assumptions ++ q.constraint,
      ¬Introduced cs l.natAbs) ∧
    (∀ l ∈ (after cs).solver.assumptions ++ (after cs).solver.constraint ++
      (after cs).solver.clause, ¬Introduced cs l.natAbs) := by
  have hs := clean_after hcs
  have hfree : ∀ l, Own (after cs) l → ¬Introduced cs l.natAbs := fun l h hin =>
    h.1 ((inAux_iff_introduced cs _).mpr hin)
  refine ⟨hs.ranges.increasing, fun r hr => ⟨r.first_le_last, hs.ranges.last_le r hr,
    range_of_call cs hr⟩, fun lits arg => ?_, ?_, fun q hq l hl => hfree l (hs.searches q hq l hl),
    fun l hl => hfree l ?_⟩
  · constructor
    · rintro ⟨e, he⟩
      obtain ⟨l, hl, haux, -⟩ := checkNotAux_error hs.ranges.increasing he
      exact ⟨l, hl, (inAux_iff_introduced cs _).mp haux⟩
    · rintro ⟨l, hl, hin⟩
      cases hcheck : checkNotAux (after cs).aux lits arg with
      | error e => exact ⟨e, rfl⟩
      | ok u =>
        have hall := (checkNotAux_ok_iff hs.ranges.increasing lits arg).mp hcheck
        exact absurd ((inAux_iff_introduced cs _).mpr hin) (hall l hl)
  · rintro before c later rfl cl hcl l hl hin
    exact introduced_occurs hcs hcl hl hin
  · rcases List.mem_append.mp hl with hl | hl
    · rcases List.mem_append.mp hl with hl | hl
      · exact hs.assumptions l hl
      · exact hs.constraint l hl
    · exact hs.clause l hl

/-- At most one of two literals, then a clause over a third variable. -/
def pairThenClause : List Call :=
  [.cardinality .atMost (.ints [1, -2]) (.ints [1]) (.chr [some "sequential"]),
    .add (.value (.ints [4, 1]))]

theorem auxiliary_ranges_pair :
    (∀ c ∈ pairThenClause, leavesFactor c) ∧ Introduced pairThenClause 3 ∧
      ∃ e, checkNotAux (after pairThenClause).aux [4, -3] "x" = .error e := by
  have hcs : ∀ c ∈ pairThenClause, leavesFactor c := by
    simp [pairThenClause, leavesFactor, setsOption]
  have hin : Introduced pairThenClause 3 := (inAux_iff_introduced _ _).mp (by decide)
  exact ⟨hcs, hin, ((auxiliary_ranges pairThenClause hcs).2.2.1 [4, -3] "x").mpr
    ⟨-3, by simp, by simpa using hin⟩⟩

end Session
end Zusat
