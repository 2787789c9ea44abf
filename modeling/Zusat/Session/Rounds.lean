import Zusat.Session.Reports
import Zusat.Session.Solving

/-! # One round of `sat_solutions`, in closed form

What is checked before the loop is collected in a `Request`. A round arms the constraint, searches, and
on a model blocks the projected assignment; `round_cases` lists its five ends and `loop_rule` turns them
into a rule for the loop. -/

namespace Zusat
open Foundations Foundations.Prog
set_option autoImplicit false

namespace Session

/-! ## The request -/

/-- The arguments of the loop. -/
structure Request where
  limit : RNum
  assumptions : List ℤ
  constraint : Option (List ℤ)
  vars : Option (List ℤ)

/-- A clause given as `constraint`, or a projection given as `vars`. -/
def optionalHands (check : RValue → Except RError (List ℤ)) (aux : List AuxRange) (arg : String) :
    RValue → Except RError (Option (List ℤ))
  | .null => .ok none
  | v => do
    let ls ← check v
    checkNotAux aux ls arg
    return some ls

def solutionsHands (s : Session) (limit vars assumptions constraint : RValue) :
    Except RError Request := do
  let limit ← solutionLimit limit
  if s.handle.constraintPending then
    .error (.stop ("a constraint set with sat_constrain() covers " ++
      "one solve only, and enumeration solves once per model; pass it as `constraint` to " ++
      "sat_solutions() instead"))
  let assumptions ← asLiterals "assumptions" assumptions
  checkNotAux s.aux assumptions "assumptions"
  let constraint ← optionalHands (asLiterals "constraint") s.aux "constraint" constraint
  let vars ← optionalHands (asVariables "vars") s.aux "vars" vars
  return ⟨limit, assumptions, constraint, vars.map unique⟩

/-- The loop of a request, from its start. -/
def enumerate (r : Request) (asks : List Oracle) : SessionM Solutions := do
  let st ← satSolutionsLoop r.limit r.vars r.assumptions r.constraint asks ⟨[], [], .unknown, .limit⟩
  pure (newSolutions st.found (if st.found.isEmpty then [] else st.thisVars) st.status st.stopped)

theorem optional_eq {α : Type} {f : RValue → SessionM α} {v : RValue} (hv : v ≠ .null) :
    optional f v = f v >>= fun a => pure (some a) := by
  cases v <;> first | exact absurd rfl hv | rfl

theorem optionalHands_eq {check : RValue → Except RError (List ℤ)} {aux : List AuxRange}
    {arg : String} {v : RValue} (hv : v ≠ .null) : optionalHands check aux arg v =
      (check v >>= fun ls => checkNotAux aux ls arg >>= fun _ => pure (some ls)) := by
  cases v <;> first | exact absurd rfl hv | rfl

theorem run_optional {α : Type} (check : RValue → Except RError (List ℤ)) (arg : String)
    (g : List ℤ → List ℤ) (v : RValue) (f : Option (List ℤ) → SessionM α) (s : Session) :
    (optional (fun v => do
      let ls ← ofExcept (check v)
      refuseAux ls arg
      pure (g ls)) v >>= f).run s =
    (ofExcept (optionalHands check s.aux arg v) >>= fun o => f (o.map g)).run s := by
  by_cases hv : v = .null
  · rw [hv]
    rfl
  · rw [optional_eq hv, optionalHands_eq hv, run_ofExcept_bind]
    cases check v with
    | error e => rfl
    | ok ls =>
      rw [run_bind, run_bind, run_bind, run_ofExcept_ok, andThen_ok, run_bind, run_refuseAux,
        run_bind, run_ofExcept_ok, andThen_ok, run_ofExcept_bind]
      cases checkNotAux s.aux ls arg <;> rfl

theorem run_optionals (limit : RNum) (as : List ℤ) (vars constraint : RValue) (asks : List Oracle)
    (s : Session) :
    (optional (fun v => do
      let lits ← ofExcept (asLiterals "constraint" v)
      refuseAux lits "constraint"
      pure lits) constraint >>= fun con =>
    optional (fun v => do
      let vs ← ofExcept (asVariables "vars" v)
      refuseAux vs "vars"
      pure (unique vs)) vars >>= fun vars => enumerate ⟨limit, as, con, vars⟩ asks).run s =
    (ofExcept (optionalHands (asLiterals "constraint") s.aux "constraint" constraint >>= fun con =>
      optionalHands (asVariables "vars") s.aux "vars" vars >>= fun vars =>
        pure (⟨limit, as, con, vars.map unique⟩ : Request)) >>= fun r => enumerate r asks).run s := by
  refine (run_optional (asLiterals "constraint") "constraint" id constraint _ s).trans ?_
  rw [run_ofExcept_bind]
  cases optionalHands (asLiterals "constraint") s.aux "constraint" constraint with
  | error e => rfl
  | ok con =>
    rw [run_bind, run_ofExcept_ok, andThen_ok, Option.map_id]
    refine (run_optional (asVariables "vars") "vars" unique vars _ s).trans ?_
    rw [run_bind, run_bind, run_ofExcept_ok, andThen_ok, run_ofExcept_bind]
    cases optionalHands (asVariables "vars") s.aux "vars" vars <;> rfl

theorem run_satSolutions (limit vars assumptions constraint : RValue) (asks : List Oracle)
    (s : Session) : (satSolutions limit vars assumptions constraint asks).run s =
      (ofExcept (solutionsHands s limit vars assumptions constraint) >>= fun r =>
        enumerate r asks).run s := by
  rw [satSolutions, solutionsHands, run_ofExcept_bind]
  cases solutionLimit limit with
  | error e => rfl
  | ok limit =>
    rw [run_bind, run_bind, run_ofExcept_ok, andThen_ok, andThen_ok, run_bind, run_read, andThen_ok,
      run_bind]
    cases s.handle.constraintPending with
    | true => rfl
    | false =>
      rw [Bool.not_false, run_require_true, andThen_ok, if_neg Bool.false_ne_true, run_ofExcept_bind]
      cases asLiterals "assumptions" assumptions with
      | error e => rfl
      | ok as =>
        rw [run_bind, run_ofExcept_ok, andThen_ok, run_refuseAux_bind]
        refine Eq.trans ?_ (run_ofExcept_bind (checkNotAux s.aux as "assumptions") _ _ s).symm
        cases checkNotAux s.aux as "assumptions" with
        | error e => rfl
        | ok u => exact run_optionals limit as vars constraint asks s

/-- What the checks guarantee of a request. -/
structure Request.Checked (aux : List AuxRange) (r : Request) : Prop where
  assumptions : ∀ l ∈ r.assumptions, ValidLit l
  assumptionsFree : checkNotAux aux r.assumptions "assumptions" = .ok ()
  constraint : ∀ p, r.constraint = some p → ∀ l ∈ p, ValidLit l
  constraintFree : ∀ p, r.constraint = some p → checkNotAux aux p "constraint" = .ok ()
  vars : ∀ vs, r.vars = some vs → vs.Nodup ∧ ∀ v ∈ vs, ValidLit v ∧ 0 < v
  varsFree : ∀ vs, r.vars = some vs → ∃ ws, checkNotAux aux ws "vars" = .ok () ∧ ∀ v ∈ vs, v ∈ ws

theorem mem_unique {vs : List ℤ} {v : ℤ} : v ∈ unique vs ↔ v ∈ vs := by
  rw [unique, List.mem_reverse, List.mem_dedup, List.mem_reverse]

theorem nodup_unique (vs : List ℤ) : (unique vs).Nodup :=
  List.nodup_reverse.mpr (List.nodup_dedup _)

theorem optionalHands_ok {check : RValue → Except RError (List ℤ)} {aux : List AuxRange}
    {arg : String} {v : RValue} {o : Option (List ℤ)} (h : optionalHands check aux arg v = .ok o) :
    (v = .null ∧ o = none) ∨
      ∃ ls, check v = .ok ls ∧ checkNotAux aux ls arg = .ok () ∧ o = some ls ∧ v ≠ .null := by
  by_cases hv : v = .null
  · rw [hv] at h
    exact .inl ⟨hv, (Except.ok.inj h).symm⟩
  · rw [optionalHands_eq hv] at h
    obtain ⟨ls, hls, h⟩ := except_bind_ok.mp h
    obtain ⟨_, hfree, h⟩ := except_bind_ok.mp h
    exact .inr ⟨ls, hls, hfree, (Except.ok.inj h).symm, hv⟩

theorem solutionsHands_ok {s : Session} {limit vars assumptions constraint : RValue} {r : Request}
    (h : solutionsHands s limit vars assumptions constraint = .ok r) :
    r.Checked s.aux ∧ s.handle.constraintPending = false ∧ (r.vars = none ↔ vars = .null) := by
  obtain ⟨lim, -, h⟩ := except_bind_ok.mp h
  cases hpend : s.handle.constraintPending with
  | true =>
    rw [hpend] at h
    cases h
  | false =>
    rw [hpend, if_neg Bool.false_ne_true] at h
    obtain ⟨as, has, h⟩ := except_bind_ok.mp h
    obtain ⟨_, hfree, h⟩ := except_bind_ok.mp h
    obtain ⟨con, hcon, h⟩ := except_bind_ok.mp h
    obtain ⟨vs, hvs, h⟩ := except_bind_ok.mp h
    obtain rfl := Except.ok.inj h
    refine ⟨⟨asLiterals_valid has, hfree, ?_, ?_, ?_, ?_⟩, rfl, ?_⟩
    · rintro p rfl
      rcases optionalHands_ok hcon with ⟨-, h⟩ | ⟨ls, hls, -, h, -⟩
      · cases h
      · obtain rfl := Option.some.inj h
        exact asLiterals_valid hls
    · rintro p rfl
      rcases optionalHands_ok hcon with ⟨-, h⟩ | ⟨ls, -, hfree, h, -⟩
      · cases h
      · obtain rfl := Option.some.inj h
        exact hfree
    · intro ws hws
      rcases optionalHands_ok hvs with ⟨-, rfl⟩ | ⟨ls, hls, -, rfl, -⟩
      · cases hws
      · obtain rfl := Option.some.inj hws
        exact ⟨nodup_unique ls, fun v hv => asVariables_valid hls v (mem_unique.mp hv)⟩
    · intro ws hws
      rcases optionalHands_ok hvs with ⟨-, rfl⟩ | ⟨ls, -, hfree, rfl, -⟩
      · cases hws
      · obtain rfl := Option.some.inj hws
        exact ⟨ls, hfree, fun v hv => mem_unique.mp hv⟩
    · rcases optionalHands_ok hvs with ⟨hnull, rfl⟩ | ⟨ls, -, -, rfl, hne⟩
      · exact ⟨fun _ => hnull, fun _ => rfl⟩
      · refine ⟨fun h => ?_, fun hnull => absurd hnull hne⟩
        cases h

/-- The session with the constraint of the request in force. -/
def armed (s : Session) : Option (List ℤ) → Session
  | none => s
  | some p => s.withHandle (constrainedBy s.handle p)

/-- What the search of the round answers. -/
def roundAnswer (s : Session) (r : Request) (ask : Oracle) : Answer :=
  answerOf (armed s r.constraint).solver r.assumptions ask

/-- The session when that search has returned. -/
def asked (s : Session) (r : Request) (ask : Oracle) : Session :=
  (armed s r.constraint).withHandle (searched (armed s r.constraint).handle r.assumptions ask)

/-- The variables the round projects onto. -/
def roundVars (r : Request) (s : Session) : List ℤ := r.vars.getD (seqLen s.solver.maxVar)

/-- The values it reads for them; a variable CaDiCaL does not know reads as false. -/
def roundValue (s : Session) (vs : List ℤ) : List Bool :=
  vs.map fun v => (Handle.valueOf s.solver v).getD false

/-- The session with one more clause. -/
def withClause (s : Session) (cl : List ℤ) : Session := s.withHandle (Handle.addedTo s.handle cl)

/-- The loop variables once an assignment has been read. -/
def Enumeration.reading (st : Enumeration) (vs : List ℤ) (value : List Bool) : Enumeration :=
  ⟨st.found ++ [value], vs, .sat, st.stopped⟩

/-- The loop variables when a search found no model. -/
def Enumeration.ending (st : Enumeration) (r : SolveRes) : Enumeration :=
  { st with
    status := if st.found.isEmpty then r else st.status
    stopped := if r = .unsat then .exhausted else .unknown }

/-- The literals of a request that CaDiCaL does not let pass. -/
def Request.unusable (r : Request) (c : Cadical) : Prop :=
  ∃ l ∈ r.constraint.getD [] ++ r.assumptions, c.usable l = false

/-- What CaDiCaL finds when it checks the answer. -/
def roundCheck (s : Session) (r : Request) (ask : Oracle) : Except RError Unit :=
  Cadical.searchCheck false ask (assuming (armed s r.constraint).solver r.assumptions)

/-- A round that raised an error before it blocked anything. -/
structure FailedRound (s : Session) (r : Request) (ask : Oracle) (e : RError) (s' : Session) :
    Prop where
  clauses : s'.solver.clauses = s.solver.clauses
  clause : s'.solver.clause = s.solver.clause
  contract : e.isContract = true → r.unusable s.solver ∨
    (r.constraint = none ∧ r.assumptions = [] ∧ s.solver.state = .adding) ∨
    roundCheck s r ask = .error e ∨
    ((roundAnswer s r ask).res = .sat ∧ ∃ v, (asked s r ask).solver.ervars v = true)

theorem sameChecks_armed (s : Session) (con : Option (List ℤ)) :
    Cadical.SameChecks s.solver (armed s con).solver := by
  cases con <;> exact ⟨rfl, rfl, rfl⟩

theorem armed_aux (s : Session) (con : Option (List ℤ)) : (armed s con).aux = s.aux := by
  cases con <;> rfl

theorem armed_clauses (s : Session) (con : Option (List ℤ)) :
    (armed s con).solver.clauses = s.solver.clauses ∧
      (armed s con).solver.clause = s.solver.clause := by
  cases con <;> exact ⟨rfl, rfl⟩

theorem armed_valid {s : Session} (hv : s.solver.state.valid = true) (con : Option (List ℤ)) :
    (armed s con).solver.state.valid = true := by
  cases con with
  | none => exact hv
  | some p => rfl

theorem assuming_clauses (c : Cadical) (p : List ℤ) :
    (assuming c p).clauses = c.clauses ∧ (assuming c p).clause = c.clause := by
  cases p with
  | nil => exact ⟨rfl, rfl⟩
  | cons l p => rw [assuming, Cadical.foldl_pushAssumption]; exact ⟨rfl, rfl⟩

theorem armed_opts (s : Session) (con : Option (List ℤ)) : (armed s con).solver.opts = s.solver.opts := by
  cases con <;> rfl

theorem assuming_opts (c : Cadical) (p : List ℤ) : (assuming c p).opts = c.opts := by
  cases p with
  | nil => rfl
  | cons l p =>
    rw [assuming, Cadical.foldl_pushAssumption]
    rfl

theorem startSearch_clauses (c : Cadical) :
    c.startSearch.clauses = c.clauses ∧ c.startSearch.clause = c.clause := by
  rw [Cadical.startSearch, Cadical.updateMoltenLiterals]
  split <;> exact ⟨rfl, rfl⟩

theorem asked_clauses (s : Session) (r : Request) (ask : Oracle) :
    (asked s r ask).solver.clauses = s.solver.clauses ∧
      (asked s r ask).solver.clause = s.solver.clause := by
  have h1 := startSearch_clauses (assuming (armed s r.constraint).solver r.assumptions)
  have h2 := assuming_clauses (armed s r.constraint).solver r.assumptions
  have h3 := armed_clauses s r.constraint
  exact ⟨(h1.1.trans h2.1).trans h3.1, (h1.2.trans h2.2).trans h3.2⟩

theorem asked_aux (s : Session) (r : Request) (ask : Oracle) : (asked s r ask).aux = s.aux :=
  armed_aux s r.constraint

theorem stopConstrain_clauses (c : Cadical) (l : ℤ) :
    (c.stopConstrain l).clauses = c.clauses ∧ (c.stopConstrain l).clause = c.clause := by
  rw [Cadical.stopConstrain]
  split <;> exact ⟨rfl, rfl⟩

theorem stopAssume_clauses (c : Cadical) (l : ℤ) :
    (c.stopAssume l).clauses = c.clauses ∧ (c.stopAssume l).clause = c.clause := by
  rw [Cadical.stopAssume]
  split <;> exact ⟨rfl, rfl⟩

theorem foldl_pushConstraint_clauses (c : Cadical) (q : List ℤ) :
    (q.foldl Cadical.pushConstraint c).clauses = c.clauses ∧
      (q.foldl Cadical.pushConstraint c).clause = c.clause := by
  induction q generalizing c with
  | nil => exact ⟨rfl, rfl⟩
  | cons l q ih => exact ih (c.pushConstraint l)

theorem run_arm {s : Session} (hv : s.solver.state.valid = true) {con : Option (List ℤ)}
    (hcon : ∀ p, con = some p → ∀ l ∈ p, ValidLit l) :
    (doIf con.isSome (onHandle (Handle.zusatConstrain (.int (con.getD []))))).run s =
        (.ok (), armed s con) ∨
      ∃ e s', (doIf con.isSome (onHandle (Handle.zusatConstrain (.int (con.getD []))))).run s =
          (.error e, s') ∧ s'.solver.clauses = s.solver.clauses ∧
        s'.solver.clause = s.solver.clause ∧
        (e.isContract = true → ∃ l ∈ con.getD [], s.solver.usable l = false) := by
  cases con with
  | none => exact .inl rfl
  | some p =>
    rcases Handle.run_zusatConstrain hv (hcon p rfl) with
      ⟨-, hrun⟩ | ⟨q, l, r, e, hp, -, -, -, hc, hrun⟩
    · exact .inl (run_onHandle hrun)
    · refine .inr ⟨e, _, run_onHandle hrun, ?_, ?_, fun he => ⟨l, ?_, ?_⟩⟩
      · exact (stopConstrain_clauses _ l).1.trans (foldl_pushConstraint_clauses _ q).1
      · exact (stopConstrain_clauses _ l).2.trans (foldl_pushConstraint_clauses _ q).2
      · rw [Option.getD_some, hp]
        simp
      · rw [he] at hc
        simpa using hc.symm

theorem usable_of_valid {c : Cadical} {l : ℤ} (hl : ValidLit l) (he : c.ervars l.natAbs = false) :
    c.usable l = true := by
  have hna : l ≠ naInteger := by
    rintro rfl
    exact absurd hl.2 (by decide)
  rw [Cadical.usable, Cadical.isValidInput_eq, he, bne_iff_ne.mpr hl.1, bne_iff_ne.mpr hna]
  rfl

theorem asVariables_error {arg : String} {v : RValue} {e : RError}
    (h : asVariables arg v = .error e) : e.isStop = true := by
  rw [asVariables] at h
  split at h
  · next e' he =>
    obtain rfl := Except.error.inj h
    exact asLiterals_error he
  · split_ifs at h
    rw [← Except.error.inj h]
    rfl

theorem asLiterals_ints_ok {arg : String} {ls ls' : List ℤ}
    (h : asLiterals arg (.ints ls) = .ok ls') : ls' = ls := by
  rw [RValue.ints, asLiterals] at h
  split_ifs at h
  rw [← Except.ok.inj h, List.map_map]
  simp [Function.comp_def, RNum.asInteger_intCast]

/-- All variables can be asked for only while they are within the package's bound. -/
theorem maxVar_le_of_asVariables {arg : String} {n : ℕ} {vs : List ℤ}
    (h : asVariables arg (.ints (seqLen n)) = .ok vs) : n ≤ zusatMaxVar := by
  rw [asVariables] at h
  split at h
  · cases h
  · next ls hls =>
    obtain rfl := asLiterals_ints_ok hls
    rcases Nat.eq_zero_or_pos n with rfl | hpos
    · exact Nat.zero_le _
    · have := (asLiterals_valid hls n (mem_seqLen.mpr ⟨by omega, le_rfl⟩)).2
      omega

theorem newSolution_sat_bound {s s' : Session} (hv : s.solver.state.valid = true) {sol : Solution}
    (h : (newSolution .sat).run s = (.ok sol, s')) : s.solver.maxVar ≤ zusatMaxVar := by
  obtain ⟨rows, s₁, hrows, -⟩ := run_bind_ok.mp h
  rw [solutionRows, if_pos rfl] at hrows
  obtain ⟨n, s₂, hn, hrows⟩ := run_bind_ok.mp hrows
  rw [run_satNVars (.inl hv)] at hn
  cases hn
  obtain ⟨xs, s₃, hxs, -⟩ := run_bind_ok.mp hrows
  obtain ⟨vs, s₄, hvs, -⟩ := run_bind_ok.mp hxs
  cases hvs' : asVariables "vars" (.ints (seqLen s.solver.maxVar)) with
  | error e =>
    rw [hvs'] at hvs
    cases hvs
  | ok ws => exact maxVar_le_of_asVariables hvs'

/-- Reading values fails with an error of the package's own, unless there are extension variables. -/
theorem satValue_cases {s : Session} (hl : s.handle.lastStatus = 10)
    (hs : s.solver.state = .satisfied) (hext : ∀ v, s.solver.ervars v = false) (v : RValue) :
    (∃ e, asVariables "vars" v = .error e ∧ (satValue v).run s = (.error e, s)) ∨
      ∃ vs, asVariables "vars" v = .ok vs ∧
        (satValue v).run s = (.ok (vs.map (Handle.valueOf s.solver)), s) := by
  rw [satValue, run_bind]
  cases h : asVariables "vars" v with
  | error e => exact .inl ⟨e, rfl, rfl⟩
  | ok vs =>
    have hvalid := asVariables_valid h
    refine .inr ⟨vs, rfl, ?_⟩
    rw [run_ofExcept_ok, andThen_ok, run_onHandle (Handle.run_zusatValue hl hs
      (fun v hv => (hvalid v hv).1) fun v hv _ => usable_of_valid (hvalid v hv).1 (hext _)),
      withHandle_self]

/-- A value that can be read is that of a variable CaDiCaL lets pass. -/
theorem usable_of_zusatValue {h h' : Handle} {p : List ℤ} {xs : List (Option Bool)}
    (hrun : (Handle.zusatValue (.int p)).run h = (.ok xs, h')) (hv : h.solver.state.valid = true)
    {v : ℤ} (hmem : v ∈ p) (hle : v ≤ h.solver.maxVar) : h.solver.usable v = true := by
  obtain ⟨p', h₁, hp, hrun₁⟩ := run_bind_ok.mp hrun
  cases hp
  obtain ⟨_, h₂, hread, hrun₂⟩ := run_bind_ok.mp hrun₁
  cases hread
  obtain ⟨_, h₃, hreq, hrun₃⟩ := run_bind_ok.mp hrun₂
  obtain rfl : h₃ = h := (Cadical.looks_require _ _).of_run hreq
  obtain ⟨_, h₄, hcheck, hrun₄⟩ := run_bind_ok.mp hrun₃
  obtain rfl : h₄ = h₃ := (Handle.looks_ofExcept _).of_run hcheck
  obtain ⟨known, h₅, hvars, hrun₅⟩ := run_bind_ok.mp hrun₄
  rw [Handle.run_call (Cadical.run_vars (.inl hv)), Handle.withSolver_self] at hvars
  cases hvars
  have hone := run_collect_ok (fun x _ => ?_) hrun₅ v hmem
  · obtain ⟨y, hy⟩ := hone
    rw [if_neg (by omega)] at hy
    obtain ⟨z, h₆, hval, -⟩ := run_bind_ok.mp hy
    by_contra hu
    obtain ⟨t, ht⟩ := Cadical.run_requireValidLit_refused (by simpa using hu) "val"
    have hbad : (Cadical.val v).run h₄.solver = (.error (.contract "val" t), h₄.solver) := by
      rw [Cadical.val, run_bind, Cadical.run_requireValidState hv, andThen_ok, run_bind, ht,
        andThen_error]
    rw [Handle.run_call hbad] at hval
    cases hval
  · split
    · rfl
    · exact Respects.snd (R := fun h h' => h' = h) (along_still.bind
        (Handle.looks_call (Cadical.looks_val x)) fun _ => along_still.pure _) h₄

/-- Values can be read, or there is an extension variable among them. -/
theorem satValue_reads {s : Session} (hl : s.handle.lastStatus = 10)
    (hs : s.solver.state = .satisfied) {vs : List ℤ} (hvs : ∀ v ∈ vs, ValidLit v ∧ 0 < v) :
    (∃ e, (satValue (.ints vs)).run s = (.error e, s) ∧ ∃ v, s.solver.ervars v = true) ∨
      (satValue (.ints vs)).run s = (.ok (vs.map (Handle.valueOf s.solver)), s) := by
  have hv : s.solver.state.valid = true := by rw [hs]; rfl
  by_cases hu : ∀ v ∈ vs, v ≤ s.solver.maxVar → s.solver.usable v = true
  · exact .inr (run_satValue hl hs hvs hu)
  · rw [not_forall] at hu
    obtain ⟨v, hu⟩ := hu
    obtain ⟨hmem, hu⟩ := Classical.not_imp.mp hu
    obtain ⟨hle, hu⟩ := Classical.not_imp.mp hu
    have hext : s.solver.ervars v.natAbs = true := by
      by_contra hext
      exact hu (usable_of_valid (hvs v hmem).1 (by simpa using hext))
    rcases hrun : (satValue (.ints vs)).run s with ⟨r, s'⟩
    obtain rfl : s' = s := (looks_satValue _).of_run hrun
    cases r with
    | error e => exact .inl ⟨e, rfl, v.natAbs, hext⟩
    | ok xs =>
      rw [satValue, run_bind, asVariables_ints hvs, run_ofExcept_ok, andThen_ok] at hrun
      rcases hz : (Handle.zusatValue (.int vs)).run s'.handle with ⟨r, h'⟩
      rw [run_onHandle hz] at hrun
      obtain rfl : r = .ok xs := (Prod.ext_iff.mp hrun).1
      exact absurd (usable_of_zusatValue hz hv hmem hle) hu

theorem newSolution_sat_cases {s : Session} (hl : s.handle.lastStatus = 10)
    (hs : s.solver.state = .satisfied) :
    (∃ e, (newSolution .sat).run s = (.error e, s) ∧
        (e.isContract = true → ∃ v, s.solver.ervars v = true)) ∨
      ∃ sol, sol.status = .sat ∧ (newSolution .sat).run s = (.ok sol, s) := by
  have hv : s.solver.state.valid = true := by rw [hs]; rfl
  rcases hrun : (newSolution .sat).run s with ⟨r, s'⟩
  obtain rfl : s' = s := (looks_newSolution .sat).of_run hrun
  cases r with
  | ok sol => exact .inr ⟨sol, newSolution_status hrun, rfl⟩
  | error e =>
    refine .inl ⟨e, rfl, fun hc => ?_⟩
    by_contra hno
    have hext : ∀ v, s'.solver.ervars v = false := fun v => by
      by_contra hv
      exact hno ⟨v, by simpa using hv⟩
    rw [newSolution, run_bind, solutionRows, if_pos rfl, run_bind, run_satNVars (.inl hv), andThen_ok,
      run_bind] at hrun
    rcases satValue_cases hl hs hext (.ints (seqLen s'.solver.maxVar)) with
      ⟨e', he', h⟩ | ⟨vs, -, h⟩
    · rw [h, andThen_error, andThen_error] at hrun
      obtain rfl : e' = e := Except.error.inj (Prod.ext_iff.mp hrun).1
      rw [RError.not_contract (RError.fromCadical_of_stop (asVariables_error he'))] at hc
      cases hc
    · rw [h, andThen_ok, run_pure, andThen_ok, run_bind, run_satNVars (.inl hv), andThen_ok, run_bind,
        run_irredundant hv, andThen_ok, run_pure] at hrun
      cases (Prod.ext_iff.mp hrun).1

/-- There are no extension variables. -/
def Unextended (s : Session) : Prop := ∀ v, 0 < v → s.solver.ervars v = false

/-- A whole model can only be read when there are no extension variables. -/
theorem newSolution_sat_unextended {s s' : Session} (hv : s.solver.state.valid = true) {sol : Solution}
    (h : (newSolution .sat).run s = (.ok sol, s')) : s.Unextended := by
  intro v hpos
  have hbound := newSolution_sat_bound hv h
  obtain ⟨rows, s₁, hrows, -⟩ := run_bind_ok.mp h
  rw [solutionRows, if_pos rfl] at hrows
  obtain ⟨n, s₂, hn, hrows⟩ := run_bind_ok.mp hrows
  rw [run_satNVars (.inl hv)] at hn
  cases hn
  obtain ⟨xs, s₃, hxs, -⟩ := run_bind_ok.mp hrows
  rw [satValue, run_bind, asVariables_ints (seqLen_valid hbound), run_ofExcept_ok, andThen_ok] at hxs
  rcases hz : (Handle.zusatValue (.int (seqLen s.solver.maxVar))).run s.handle with ⟨res, h'⟩
  rw [run_onHandle hz] at hxs
  obtain rfl : res = .ok xs := (Prod.ext_iff.mp hxs).1
  by_contra hext
  rw [Bool.not_eq_false] at hext
  have hle := s.solver.ervars_le v hext
  have husable := usable_of_zusatValue hz hv (v := v) (mem_seqLen.mpr (by omega)) (by
    change (v : ℤ) ≤ s.solver.maxVar
    omega)
  have hinput : s.solver.isValidInput v = true := by
    change (_ && _) = true at husable
    exact (Bool.and_eq_true_iff.mp husable).2
  rw [Cadical.isValidInput, Int.natAbs_natCast, hext, decide_eq_false (by omega)] at hinput
  cases hinput

/-! ## The ends of a round -/

section Round
variable {s : Session} {r : Request} {ask : Oracle}

theorem asked_valid (s : Session) (r : Request) (ask : Oracle) :
    (asked s r ask).solver.state.valid = true := SolveRes.state_valid _

theorem solveHands_checked (hr : r.Checked s.aux) :
    solveHands (armed s r.constraint).aux (.ints r.assumptions) = .ok r.assumptions := by
  rw [solveHands, asLiterals_ints hr.assumptions, armed_aux]
  simp only [bind, Except.bind, hr.assumptionsFree]
  rfl

/-- The search of a round: an error before anything is blocked, no model, or a model to read. -/
theorem ask_cases (hv : s.solver.state.valid = true) (hr : r.Checked s.aux) (ask : Oracle) :
    (∃ e s', (satSolve (.ints r.assumptions) ask).run (armed s r.constraint) = (.error e, s') ∧
        FailedRound s r ask e s') ∨
      ((roundAnswer s r ask).interrupted = false ∧
        (satSolve (.ints r.assumptions) ask).run (armed s r.constraint) =
          (newSolution (roundAnswer s r ask).res).run (asked s r ask)) := by
  have hhands := solveHands_checked hr
  have hclauses := armed_clauses s r.constraint
  have husable := (sameChecks_armed s r.constraint).usable
  rcases satSolve_cases (armed_valid hv r.constraint) (.ints r.assumptions) ask with
    ⟨e, hh, -⟩ | ⟨p, hh, -, -, -, hrun⟩ | ⟨p, q, l, rest, e, hh, hp, -, -, -, hc, hrun⟩ |
      ⟨hh, hadd, t, hrun⟩ | ⟨p, e, hh, -, -, hcheck, hrun⟩
  · rw [hhands] at hh
    cases hh
  · rw [hhands] at hh
    obtain rfl := Except.ok.inj hh
    cases hi : (answerOf (armed s r.constraint).solver r.assumptions ask).interrupted with
    | true =>
      rw [hi, if_pos rfl] at hrun
      obtain ⟨h1, h2⟩ := asked_clauses s r ask
      exact .inl ⟨_, _, hrun, h1, h2, fun h => nomatch h⟩
    | false =>
      rw [hi, if_neg Bool.false_ne_true] at hrun
      exact .inr ⟨hi, hrun⟩
  · rw [hhands] at hh
    obtain rfl := Except.ok.inj hh
    have hstop := stopAssume_clauses (assuming (armed s r.constraint).solver q) l
    have hq := assuming_clauses (armed s r.constraint).solver q
    refine .inl ⟨e, _, hrun, (hstop.1.trans hq.1).trans hclauses.1,
      (hstop.2.trans hq.2).trans hclauses.2, fun he => .inl ⟨l, ?_, ?_⟩⟩
    · rw [hp]
      simp
    · rw [he, husable] at hc
      simpa using hc.symm
  · rw [hhands] at hh
    refine .inl ⟨_, _, hrun, hclauses.1, hclauses.2, fun _ => .inr (.inl ?_)⟩
    cases hcon : r.constraint with
    | none =>
      rw [hcon] at hadd
      exact ⟨rfl, Except.ok.inj hh, hadd⟩
    | some p =>
      rw [hcon] at hadd
      cases hadd
  · rw [hhands] at hh
    obtain rfl := Except.ok.inj hh
    obtain ⟨h1, h2⟩ := asked_clauses s r ask
    exact .inl ⟨e, _, hrun, h1, h2, fun _ => .inr (.inr (.inl hcheck))⟩

theorem roundVars_valid (hr : r.Checked s.aux) {s' : Session} (hn : s'.solver.maxVar ≤ zusatMaxVar) :
    ∀ v ∈ roundVars r s', ValidLit v ∧ 0 < v := by
  rw [roundVars]
  cases hvs : r.vars with
  | none => exact seqLen_valid hn
  | some vs => exact (hr.vars vs hvs).2

theorem asked_sat (hi : (roundAnswer s r ask).interrupted = false)
    (hsat : (roundAnswer s r ask).res = .sat) :
    (asked s r ask).handle.lastStatus = 10 ∧ (asked s r ask).solver.state = .satisfied := by
  constructor
  · change (if (roundAnswer s r ask).interrupted then _ else (roundAnswer s r ask).res.code) = 10
    rw [hi, hsat]
    rfl
  · change (roundAnswer s r ask).res.state = _
    rw [hsat]
    rfl

/-- One clause more before the program goes on, or a literal of it that stops everything. -/
theorem run_block {t : Session} (hv : t.solver.state.valid = true) {cl : List ℤ}
    (hcl : ∀ l ∈ cl, ValidLit l) :
    ((∀ l ∈ cl, t.solver.takes l = true) ∧ ∀ m : SessionM Enumeration,
        (addClauses [cl] >>= fun _ => m).run t = m.run (withClause t cl)) ∨
      ∃ q l e, StopsAt t.solver [cl] [] q l ∧ RError.fromCadical e = true ∧
        e.isContract = !t.solver.addable l ∧ ∀ m : SessionM Enumeration,
          (addClauses [cl] >>= fun _ => m).run t =
            (.error e, t.withHandle (stoppedAt t.handle [] q l)) := by
  have hcls : ∀ c ∈ [cl], ∀ l ∈ c, ValidLit l := fun c hc => by
    rw [List.mem_singleton.mp hc]
    exact hcl
  rcases run_addClauses hv hcls with ⟨hall, hrun⟩ | ⟨done, q, l, e, hstop, he, hc, hrun⟩
  · refine .inl ⟨hall cl (List.mem_singleton.mpr rfl), fun m => ?_⟩
    rw [run_bind, hrun, andThen_ok]
    rfl
  · have hdone : done = [] := by
      obtain ⟨rest, tail, hsplit⟩ := hstop.split
      cases done with
      | nil => rfl
      | cons c done => exact absurd (List.cons.inj hsplit).2 (by simp)
    subst hdone
    exact .inr ⟨q, l, e, hstop, he, hc, fun m => by rw [run_bind, hrun, andThen_error]⟩

theorem mem_blockingClause {vs : List ℤ} {value : List Bool} {l : ℤ}
    (h : l ∈ blockingClause vs value) : ∃ v ∈ vs, l = v ∨ l = -v := by
  rw [blockingClause] at h
  induction vs generalizing value with
  | nil => cases h
  | cons v vs ih =>
    cases value with
    | nil => cases h
    | cons b value =>
      rcases List.mem_cons.mp h with rfl | h
      · exact ⟨v, List.mem_cons_self .., by cases b <;> simp⟩
      · obtain ⟨w, hw, hl⟩ := ih h
        exact ⟨w, List.mem_cons_of_mem v hw, hl⟩

theorem blockingClause_valid {vs : List ℤ} (hvs : ∀ v ∈ vs, ValidLit v) (value : List Bool) :
    ∀ l ∈ blockingClause vs value, ValidLit l := by
  intro l hl
  obtain ⟨v, hv, rfl | rfl⟩ := mem_blockingClause hl
  · exact hvs _ hv
  · exact (hvs v hv).neg

/-- The five ends of a round. -/
theorem round_cases (hv : s.solver.state.valid = true) (hr : r.Checked s.aux) (ask : Oracle)
    (st : Enumeration) :
    (∃ e s', FailedRound s r ask e s' ∧ ∀ again,
      (satSolutionsRound r.vars r.assumptions r.constraint ask again st).run s = (.error e, s')) ∨
    ((roundAnswer s r ask).interrupted = false ∧ (roundAnswer s r ask).res ≠ .sat ∧ ∀ again,
      (satSolutionsRound r.vars r.assumptions r.constraint ask again st).run s =
        (.ok (st.ending (roundAnswer s r ask).res), asked s r ask)) ∨
    ((roundAnswer s r ask).interrupted = false ∧ (roundAnswer s r ask).res = .sat ∧
      roundVars r (asked s r ask) = [] ∧ (asked s r ask).Unextended ∧ ∀ again,
      (satSolutionsRound r.vars r.assumptions r.constraint ask again st).run s =
        (.ok { st.reading [] [] with stopped := .exhausted }, asked s r ask)) ∨
    ((roundAnswer s r ask).interrupted = false ∧ (roundAnswer s r ask).res = .sat ∧
      ∃ vs value, vs = roundVars r (asked s r ask) ∧ value = roundValue (asked s r ask) vs ∧
        (∀ v ∈ vs, ValidLit v ∧ 0 < v) ∧ vs ≠ [] ∧ (asked s r ask).Unextended ∧
        (∀ l ∈ blockingClause vs value, (asked s r ask).solver.takes l = true) ∧ ∀ again,
        (satSolutionsRound r.vars r.assumptions r.constraint ask again st).run s =
          (again (st.reading vs value)).run (withClause (asked s r ask) (blockingClause vs value))) ∨
    ((roundAnswer s r ask).interrupted = false ∧ (roundAnswer s r ask).res = .sat ∧
      ∃ vs value q l e, vs = roundVars r (asked s r ask) ∧ value = roundValue (asked s r ask) vs ∧
        (∀ v ∈ vs, ValidLit v ∧ 0 < v) ∧
        StopsAt (asked s r ask).solver [blockingClause vs value] [] q l ∧
        RError.fromCadical e = true ∧ e.isContract = !(asked s r ask).solver.addable l ∧ ∀ again,
        (satSolutionsRound r.vars r.assumptions r.constraint ask again st).run s =
          (.error e, (asked s r ask).withHandle (stoppedAt (asked s r ask).handle [] q l))) := by
  rcases run_arm hv hr.constraint with harm | ⟨e, s', harm, h1, h2, hc⟩
  · have hstart : ∀ again,
        (satSolutionsRound r.vars r.assumptions r.constraint ask again st).run s = _ := fun again => by
      rw [satSolutionsRound, run_bind, harm, andThen_ok, run_bind]
    rcases ask_cases hv hr ask with ⟨e, s', hask, hfail⟩ | ⟨hi, hask⟩
    · exact .inl ⟨e, s', hfail, fun again => by rw [hstart, hask, andThen_error]⟩
    · by_cases hsat : (roundAnswer s r ask).res = .sat
      · obtain ⟨hl, hs⟩ := asked_sat hi hsat
        have hv' := asked_valid s r ask
        obtain ⟨h1, h2⟩ := asked_clauses s r ask
        rw [hsat] at hask
        rcases newSolution_sat_cases hl hs with ⟨e, hnew, hc⟩ | ⟨sol, hstatus, hnew⟩
        · exact .inl ⟨e, _, ⟨h1, h2, fun he => .inr (.inr (.inr ⟨hsat, hc he⟩))⟩, fun again => by
            rw [hstart, hask, hnew, andThen_error]⟩
        · have hvs := roundVars_valid hr (newSolution_sat_bound hv' hnew)
          have hplain := newSolution_sat_unextended hv' hnew
          have hread : ∀ again,
              (satSolutionsRound r.vars r.assumptions r.constraint ask again st).run s = _ :=
            fun again => by
              rw [hstart, hask, hnew, andThen_ok, if_neg (not_not.mpr hstatus), run_bind,
                run_satNVars (.inl hv'), andThen_ok, run_bind, ← roundVars]
          rcases satValue_reads hl hs hvs with ⟨e, hval, hext⟩ | hval
          · exact .inl ⟨e, _, ⟨h1, h2, fun _ => .inr (.inr (.inr ⟨hsat, hext⟩))⟩, fun again => by
              rw [hread, hval, andThen_error]⟩
          · by_cases hempty : roundVars r (asked s r ask) = []
            · refine .inr (.inr (.inl ⟨hi, hsat, hempty, hplain, fun again => ?_⟩))
              rw [hread, hval, andThen_ok, hempty]
              rfl
            · have hblock : ∀ again,
                  (satSolutionsRound r.vars r.assumptions r.constraint ask again st).run s =
                    (addClauses [blockingClause (roundVars r (asked s r ask))
                        (roundValue (asked s r ask) (roundVars r (asked s r ask)))] >>= fun _ =>
                      again (st.reading (roundVars r (asked s r ask))
                        (roundValue (asked s r ask) (roundVars r (asked s r ask))))).run
                          (asked s r ask) := fun again => by
                rw [hread, hval, andThen_ok, List.map_map, if_neg (by simpa using hempty)]
                rfl
              rcases run_block hv' (blockingClause_valid (fun v hmem => (hvs v hmem).1) _) with
                ⟨hall, hrun⟩ | ⟨q, l, e, hstop, he, hc, hrun⟩
              · exact .inr (.inr (.inr (.inl ⟨hi, hsat, _, _, rfl, rfl, hvs, hempty, hplain, hall,
                  fun again => by rw [hblock, hrun]⟩)))
              · exact .inr (.inr (.inr (.inr ⟨hi, hsat, _, _, q, l, e, rfl, rfl, hvs, hstop, he, hc,
                  fun again => by rw [hblock, hrun]⟩)))
      · refine .inr (.inl ⟨hi, hsat, fun again => ?_⟩)
        rw [hstart, hask, run_newSolution_other (asked_valid s r ask) hsat, andThen_ok, if_pos hsat,
          run_pure]
        rfl
  · refine .inl ⟨e, s', ⟨h1, h2, fun he => .inl ?_⟩, fun again => by
      rw [satSolutionsRound, run_bind, harm, andThen_error]⟩
    obtain ⟨l, hl, hu⟩ := hc he
    exact ⟨l, List.mem_append_left _ hl, hu⟩

/-- On a solver left in a search a round ends at once, whatever its search would have answered. -/
theorem round_solving (hs : s.solver.state = .solving) (hr : r.Checked s.aux) :
    ∃ e s', ∀ ask again st,
      (satSolutionsRound r.vars r.assumptions r.constraint ask again st).run s = (.error e, s') := by
  cases hcon : r.constraint with
  | none =>
    have hstart : ∀ ask again st, (satSolutionsRound r.vars r.assumptions none ask again st).run s = _ :=
      fun ask again st => by rw [satSolutionsRound, Option.isSome_none, run_bind, run_doIf_false, andThen_ok, run_bind]
    rcases satSolve_cases_solving hs (.ints r.assumptions) with ⟨e, -, hrun⟩ | ⟨p, fn, h', -, -, hrun⟩
    · exact ⟨e, s, fun ask again st => by rw [hstart, hrun, andThen_error]⟩
    · exact ⟨_, _, fun ask again st => by rw [hstart, hrun, andThen_error]⟩
  | some p =>
    have hrun := run_onHandle
      (Handle.run_zusatConstrain_solving (h := s.handle) hs (hr.constraint p hcon))
    refine ⟨Cadical.invalidState "constrain", s.withHandle (Handle.invalidate s.handle), fun ask again st => ?_⟩
    rw [satSolutionsRound, run_bind, Option.isSome_some, run_doIf_true, Option.getD_some, hrun, andThen_error]

end Round

/-- The rule for the loop: what a round hands on to the rest of the loop, and what holds at its end. -/
theorem loop_of_round {J : Session → Enumeration → Prop}
    {Q : Except RError Enumeration × Session → Prop} {P : Oracle → Prop} {r : Request}
    (hpure : ∀ s st, J s st → Q (.ok st, s))
    (hround : ∀ ask again, P ask → (∀ s st, J s st → Q ((again st).run s)) → ∀ s st, J s st →
      Q ((satSolutionsRound r.vars r.assumptions r.constraint ask again st).run s))
    (hlast : P interruptedSearch) (asks : List Oracle) (hasks : ∀ ask ∈ asks, P ask) (s : Session)
    (st : Enumeration) (h : J s st) :
    Q ((satSolutionsLoop r.limit r.vars r.assumptions r.constraint asks st).run s) := by
  induction asks generalizing s st with
  | nil =>
    rw [satSolutionsLoop]
    split
    · exact hround interruptedSearch _ hlast hpure s st h
    · exact hpure s st h
  | cons ask asks ih =>
    rw [satSolutionsLoop]
    split
    · exact hround ask _ (hasks ask (List.mem_cons_self ..))
        (ih fun a ha => hasks a (List.mem_cons_of_mem ask ha)) s st h
    · exact hpure s st h

end Session
end Zusat
