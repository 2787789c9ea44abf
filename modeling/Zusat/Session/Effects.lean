import Zusat.Handle.Clauses
import Zusat.Session.Ranges

/-! # What the exported calls do, in closed form -/

namespace Zusat
open Foundations Foundations.Prog
set_option autoImplicit false

namespace Session

abbrev solver (s : Session) : Cadical := s.handle.solver

@[simp] theorem withHandle_handle (s : Session) (h : Handle) : (s.withHandle h).handle = h := rfl

@[simp] theorem withHandle_self (s : Session) : s.withHandle s.handle = s := rfl

theorem run_onHandle {α : Type} {m : HandleM α} {s : Session} {r : Except RError α} {h : Handle}
    (hm : m.run s.handle = (r, h)) : (onHandle m).run s = (r, s.withHandle h) := by
  rw [onHandle, run_within, hm]

theorem run_refuseAux (lits : List ℤ) (arg : String) (s : Session) :
    (refuseAux lits arg).run s = (checkNotAux s.aux lits arg, s) := by
  rw [refuseAux, run_bind, run_read, andThen_ok]
  cases checkNotAux s.aux lits arg <;> rfl

theorem run_addClauses_of {cls : List (List ℤ)} {s : Session} {r : Except RError Unit} {h : Handle}
    (hm : (each (fun cl => Handle.zusatAddClause (.int cl)) cls).run s.handle = (r, h)) :
    (addClauses cls).run s = (r, s.withHandle h) := by
  have hw : (addClauses cls).run s =
      (onHandle (each (fun cl => Handle.zusatAddClause (.int cl)) cls)).run s :=
    run_each_within withHandle_self withHandle_handle (fun _ _ _ => rfl) _ cls s
  rw [hw, run_onHandle hm]

/-! ## Validators raise errors of the package's own -/

theorem asLiterals_error {arg : String} {v : RValue} {e : RError}
    (h : asLiterals arg v = .error e) : e.isStop = true := by
  cases v with
  | num xs =>
    rw [asLiterals] at h
    split_ifs at h <;> rw [← Except.error.inj h] <;> rfl
  | null => cases h
  | chr xs => rw [← Except.error.inj h]; rfl
  | lgl xs => rw [← Except.error.inj h]; rfl
  | other cls => rw [← Except.error.inj h]; rfl

theorem mapM_error {α β : Type} {f : α → Except RError β} (hf : ∀ x e, f x = .error e →
    e.isStop = true) {xs : List α} {e : RError} (h : xs.mapM f = .error e) :
    e.isStop = true := by
  induction xs with
  | nil => rw [List.mapM_nil] at h; cases h
  | cons x xs ih =>
    rw [List.mapM_cons] at h
    cases hx : f x with
    | error e' =>
      rw [hx] at h
      obtain rfl := Except.error.inj h
      exact hf x e' hx
    | ok b =>
      cases hxs : xs.mapM f with
      | error e' =>
        rw [hx, hxs] at h
        obtain rfl := Except.error.inj h
        exact ih hxs
      | ok bs => rw [hx, hxs] at h; cases h

theorem asClauses_error {arg : String} {xs : List RValue} {e : RError}
    (h : asClauses arg xs = .error e) : e.isStop = true := by
  rw [asClauses] at h
  split at h
  · rw [← Except.error.inj h]; rfl
  · exact mapM_error (fun _ _ => asLiterals_error) h

theorem addedClauses_cases (x : RArg) :
    (∃ cls, addedClauses x = .ok cls ∧ ∀ cl ∈ cls, ∀ l ∈ cl, ValidLit l) ∨
      ∃ e, addedClauses x = .error e ∧ e.isStop = true := by
  have hvalue : ∀ v, addedClauses (.value v) = (asLiterals "x" v).map (fun cl => [cl]) →
      (∃ cls, addedClauses (.value v) = .ok cls ∧ ∀ cl ∈ cls, ∀ l ∈ cl, ValidLit l) ∨
        ∃ e, addedClauses (.value v) = .error e ∧ e.isStop = true := by
    intro v hv
    rw [hv]
    cases hl : asLiterals "x" v with
    | error e => exact .inr ⟨e, rfl, asLiterals_error hl⟩
    | ok cl =>
      refine .inl ⟨[cl], rfl, fun cl' hcl' => ?_⟩
      rw [List.mem_singleton.mp hcl']
      exact asLiterals_valid hl
  cases x with
  | value v =>
    cases v with
    | null => exact .inr ⟨_, rfl, rfl⟩
    | num xs => exact hvalue _ rfl
    | chr xs => exact hvalue _ rfl
    | lgl xs => exact hvalue _ rfl
    | other cls => exact hvalue _ rfl
  | list xs =>
    change (∃ cls, asClauses "clauses" xs = .ok cls ∧ _) ∨ ∃ e, asClauses "clauses" xs = .error e ∧ _
    cases hc : asClauses "clauses" xs with
    | error e => exact .inr ⟨e, rfl, asClauses_error hc⟩
    | ok cls => exact .inl ⟨cls, rfl, asClauses_valid hc⟩
  | dataFrame => exact .inr ⟨_, rfl, rfl⟩

theorem optionNamed_error {name : List (Option String)} {e : RError}
    (h : satGetOption.optionNamed name = .error e) : e.isStop = true := by
  rw [satGetOption.optionNamed.eq_def] at h
  split at h
  · split at h
    · cases h
    · cases h
      rfl
  · cases h
    rfl

/-- An option is found under its name. -/
theorem optionNamed_name {name : List (Option String)} {o : OptionSpec}
    (h : satGetOption.optionNamed name = .ok o) : name = [some o.name] := by
  rw [satGetOption.optionNamed.eq_def] at h
  split at h
  · next nm =>
    split at h
    · next o' ho' =>
      obtain rfl := Except.ok.inj h
      have hname : o'.name = nm := by simpa using List.find?_some ho'
      rw [hname]
    · cases h
  · cases h

theorem optionValue_error {o : OptionSpec} {v : RValue} {e : RError}
    (h : optionValue o v = .error e) : e.isStop = true := by
  rw [optionValue.eq_def] at h
  split at h
  · split_ifs at h <;> (cases h; rfl)
  · cases h
    rfl

theorem checkLimitValue_error {name : String} {v : RValue} {e : RError}
    (h : checkLimitValue name v = .error e) : e.isStop = true := by
  rw [checkLimitValue.eq_def] at h
  split at h
  · split_ifs at h <;> (cases h; rfl)
  · cases h
    rfl

theorem matchFormat_error {v : RValue} {e : RError} (h : matchFormat v = .error e) :
    e.isStop = true := by
  rw [matchFormat.eq_def] at h
  split at h
  · cases h
  · split_ifs at h
    split at h
    · split_ifs at h
      cases h
      rfl
    · cases h
      rfl
    · cases h
      rfl
  · cases h
    rfl

/-- The clauses `sat_add` hands over, or its own refusal. -/
def addHands (aux : List AuxRange) (x : RArg) : Except RError (List (List ℤ)) := do
  let cls ← addedClauses x
  checkNotAux aux cls.flatten "x"
  return cls

theorem run_refuseAux_bind {α : Type} (lits : List ℤ) (arg : String) (f : Unit → SessionM α)
    (s : Session) :
    (refuseAux lits arg >>= f).run s = (ofExcept (checkNotAux s.aux lits arg) >>= f).run s := by
  rw [run_bind, run_refuseAux, run_bind]
  cases checkNotAux s.aux lits arg <;> rfl

theorem run_satAdd (x : RArg) (s : Session) :
    (satAdd x).run s = (ofExcept (addHands s.aux x) >>= addClauses).run s := by
  rw [satAdd, addHands, run_ofExcept_bind]
  cases addedClauses x with
  | error e => rfl
  | ok cls =>
    refine (run_refuseAux_bind cls.flatten "x" (fun _ => addClauses cls) s).trans ?_
    rw [run_bind, run_bind, run_ofExcept_ok, andThen_ok, run_ofExcept_bind]
    rfl

theorem addHands_ok {aux : List AuxRange} {x : RArg} {cls : List (List ℤ)}
    (h : addHands aux x = .ok cls) : addedClauses x = .ok cls ∧
      checkNotAux aux cls.flatten "x" = .ok () ∧ ∀ cl ∈ cls, ∀ l ∈ cl, ValidLit l := by
  obtain ⟨cls', hcls, h⟩ := except_bind_ok.mp h
  obtain ⟨_, hcheck, h⟩ := except_bind_ok.mp h
  obtain rfl := Except.ok.inj h
  rcases addedClauses_cases x with ⟨cls'', hcls', hvalid⟩ | ⟨e, he, -⟩
  · obtain rfl := Except.ok.inj (hcls.symm.trans hcls')
    exact ⟨hcls, hcheck, hvalid⟩
  · rw [he] at hcls
    cases hcls

/-- The literals `sat_constrain` hands over. -/
def constrainHands (aux : List AuxRange) (v : RValue) : Except RError (List ℤ) := do
  if v = .null then .error (.stop "`literals` is NULL; use integer() for the empty constraint")
  let lits ← asLiterals "literals" v
  checkNotAux aux lits "literals"
  return lits

theorem run_satConstrain (v : RValue) (s : Session) :
    (satConstrain v).run s = (ofExcept (constrainHands s.aux v) >>= fun lits =>
      onHandle (Handle.zusatConstrain (.int lits))).run s := by
  by_cases hv : v = .null
  · rw [hv]
    rfl
  · have hb : (v != .null) = true := bne_iff_ne.mpr hv
    have hhands : constrainHands s.aux v = (asLiterals "literals" v >>= fun lits =>
        checkNotAux s.aux lits "literals" >>= fun _ => pure lits) := by
      rw [constrainHands, if_neg hv]
    rw [satConstrain, run_bind, hb, run_require_true, andThen_ok, hhands, run_ofExcept_bind]
    cases asLiterals "literals" v with
    | error e => rfl
    | ok lits =>
      refine (run_refuseAux_bind lits "literals"
        (fun _ => onHandle (Handle.zusatConstrain (.int lits))) s).trans ?_
      rw [run_bind, run_bind, run_ofExcept_ok, andThen_ok, run_ofExcept_bind]
      rfl

theorem constrainHands_ok {aux : List AuxRange} {v : RValue} {lits : List ℤ}
    (h : constrainHands aux v = .ok lits) : asLiterals "literals" v = .ok lits ∧
      checkNotAux aux lits "literals" = .ok () ∧ ∀ l ∈ lits, ValidLit l := by
  rw [constrainHands] at h
  split at h
  · cases h
  · obtain ⟨lits', hl, h⟩ := except_bind_ok.mp h
    obtain ⟨_, hcheck, h⟩ := except_bind_ok.mp h
    obtain rfl := Except.ok.inj h
    exact ⟨hl, hcheck, asLiterals_valid hl⟩

/-- The handle after `add_clauses` stopped at the literal `l`. -/
def stoppedAt (h : Handle) (done : List (List ℤ)) (q : List ℤ) (l : ℤ) : Handle :=
  (Handle.invalidate (done.foldl Handle.addedTo h)).withSolver
    ((q.foldl Cadical.pushLit (done.foldl Cadical.takeClause h.solver)).stopAdd l)

/-- Where `add_clauses` stops: the clauses before, the literals of the clause before, the literal
that is not taken. -/
structure StopsAt (c : Cadical) (cls done : List (List ℤ)) (q : List ℤ) (l : ℤ) : Prop where
  split : ∃ r rest, cls = done ++ (q ++ l :: r) :: rest
  done : ∀ cl ∈ done, ∀ x ∈ cl, c.takes x = true
  before : ∀ x ∈ q, c.takes x = true
  stop : c.takes l = false

theorem run_addClauses {s : Session} (hv : s.handle.solver.state.valid = true)
    {cls : List (List ℤ)} (hcls : ∀ cl ∈ cls, ∀ l ∈ cl, ValidLit l) :
    ((∀ cl ∈ cls, ∀ l ∈ cl, s.handle.solver.takes l = true) ∧
        (addClauses cls).run s = (.ok (), s.withHandle (cls.foldl Handle.addedTo s.handle))) ∨
      ∃ done q l e, StopsAt s.handle.solver cls done q l ∧ RError.fromCadical e = true ∧
        e.isContract = !s.handle.solver.addable l ∧
        (addClauses cls).run s = (.error e, s.withHandle (stoppedAt s.handle done q l)) := by
  rcases Handle.run_addAll hv hcls with
    ⟨hall, hrun⟩ | ⟨done, q, l, r, rest, e, hsplit, hdone, hq, hl, he, hc, hrun⟩
  · exact .inl ⟨hall, run_addClauses_of hrun⟩
  · exact .inr ⟨done, q, l, e, ⟨⟨r, rest, hsplit⟩, hdone, hq, hl⟩, he, hc, run_addClauses_of hrun⟩

theorem satAdd_cases {s : Session} (hv : s.handle.solver.state.valid = true) (x : RArg) :
    (∃ e, addHands s.aux x = .error e ∧ (satAdd x).run s = (.error e, s)) ∨
    (∃ cls, addHands s.aux x = .ok cls ∧
      (∀ cl ∈ cls, ∀ l ∈ cl, s.handle.solver.takes l = true) ∧
      (satAdd x).run s = (.ok (), s.withHandle (cls.foldl Handle.addedTo s.handle))) ∨
    (∃ cls done q l e, addHands s.aux x = .ok cls ∧ StopsAt s.handle.solver cls done q l ∧
      RError.fromCadical e = true ∧ e.isContract = !s.handle.solver.addable l ∧
      (satAdd x).run s = (.error e, s.withHandle (stoppedAt s.handle done q l))) := by
  rw [run_satAdd]
  cases hh : addHands s.aux x with
  | error e => exact .inl ⟨e, rfl, rfl⟩
  | ok cls =>
    rw [run_bind, run_ofExcept_ok, andThen_ok]
    rcases run_addClauses hv (addHands_ok hh).2.2 with ⟨hall, hrun⟩ | ⟨done, q, l, e, hs, he, hc, hrun⟩
    · exact .inr (.inl ⟨cls, rfl, hall, hrun⟩)
    · exact .inr (.inr ⟨cls, done, q, l, e, rfl, hs, he, hc, hrun⟩)

/-- The handle after a constraint was taken. -/
def constrainedBy (h : Handle) (p : List ℤ) : Handle :=
  { (Handle.invalidate h).withSolver (h.solver.takeConstraint p) with constraintPending := true }

theorem satConstrain_cases {s : Session} (hv : s.handle.solver.state.valid = true) (v : RValue) :
    (∃ e, constrainHands s.aux v = .error e ∧ (satConstrain v).run s = (.error e, s)) ∨
    (∃ p, constrainHands s.aux v = .ok p ∧ (∀ l ∈ p, s.handle.solver.accepts l = true) ∧
      (satConstrain v).run s = (.ok (), s.withHandle (constrainedBy s.handle p))) ∨
    (∃ p q l r e, constrainHands s.aux v = .ok p ∧ p = q ++ l :: r ∧
      (∀ x ∈ q, s.handle.solver.accepts x = true) ∧ s.handle.solver.accepts l = false ∧
      RError.fromCadical e = true ∧ e.isContract = !s.handle.solver.usable l ∧
      (satConstrain v).run s = (.error e, s.withHandle ((Handle.invalidate s.handle).withSolver
        ((q.foldl Cadical.pushConstraint s.handle.solver).stopConstrain l)))) := by
  rw [run_satConstrain]
  cases hh : constrainHands s.aux v with
  | error e => exact .inl ⟨e, rfl, rfl⟩
  | ok p =>
    rw [run_bind, run_ofExcept_ok, andThen_ok]
    rcases Handle.run_zusatConstrain hv (constrainHands_ok hh).2.2 with
      ⟨hall, hrun⟩ | ⟨q, l, r, e, hp, hq, hl, he, hc, hrun⟩
    · exact .inr (.inl ⟨p, rfl, hall, run_onHandle hrun⟩)
    · exact .inr (.inr ⟨p, q, l, r, e, rfl, hp, hq, hl, he, hc, run_onHandle hrun⟩)

/-- The number `sat_reserve` passes on, or its own refusal. -/
def reserveHands (aux : List AuxRange) (n : RValue) : Except RError ℕ := do
  let n ← reserveCount n
  match aux.find? (fun r => decide (r.first ≤ n)) with
  | some r => .error (.stop (s!"variables {r.first} to {r.last} are already auxiliary variables " ++
      "of a cardinality constraint; reserve before adding cardinality constraints"))
  | none => .ok n

theorem RNum.toNat_le {x : RNum} {b : ℕ} (hf : x.isFinite) (hw : x.isWhole)
    (hgt : x.gt b = false) : x.asInteger.toNat ≤ b := by
  rw [RNum.isWhole_iff hf hw] at hgt
  have : ¬((b : ℤ) : ℚ) < (x.asInteger : ℚ) := by simpa [RNum.gt] using hgt
  rw [Int.cast_lt] at this
  omega

theorem reserveCount_le {v : RValue} {n : ℕ} (h : reserveCount v = .ok n) : n ≤ zusatMaxVar := by
  rw [reserveCount.eq_def] at h
  split at h
  · split_ifs at h with hna hfin hlt hgt
    obtain rfl := Except.ok.inj h
    rw [Bool.or_eq_true, not_or] at hfin
    exact RNum.toNat_le (by simpa using hfin.1) (by simpa using hfin.2) (by simpa using hgt)
  · cases h

theorem reserveCount_error {v : RValue} {e : RError} (h : reserveCount v = .error e) :
    e.isStop = true := by
  rw [reserveCount.eq_def] at h
  split at h
  · split_ifs at h <;> rw [← Except.error.inj h] <;> rfl
  · rw [← Except.error.inj h]; rfl

/-- The package's own part of `sat_reserve`. -/
theorem satReserve_start (s : Session) (v : RValue) :
    (∃ e, reserveHands s.aux v = .error e ∧ (satReserve v).run s = (.error e, s)) ∨
    (∃ n : ℕ, reserveHands s.aux v = .ok n ∧ n ≤ zusatMaxVar ∧ (satReserve v).run s =
      andThen ((onHandle (Handle.zusatReserve (.int [(n : ℤ)]))).run s) fun _ => pure ()) := by
  rw [satReserve, run_bind]
  cases hn : reserveCount v with
  | error e => exact .inl ⟨e, by rw [reserveHands, hn]; rfl, rfl⟩
  | ok n =>
    rw [run_ofExcept_ok, andThen_ok, run_bind, run_read, andThen_ok, run_bind]
    cases hfind : s.aux.find? (fun r => decide (r.first ≤ n)) with
    | some r =>
      refine .inl ⟨_, ?_, rfl⟩
      simp only [reserveHands, hn, bind, Except.bind, hfind]
    | none =>
      refine .inr ⟨n, ?_, reserveCount_le hn, ?_⟩
      · simp only [reserveHands, hn, bind, Except.bind, hfind]
      · rw [run_ofExcept_ok, andThen_ok, run_bind]

theorem satReserve_cases {s : Session} (hv : s.handle.solver.state.valid = true) (v : RValue) :
    (∃ e, reserveHands s.aux v = .error e ∧ (satReserve v).run s = (.error e, s)) ∨
    (∃ n, reserveHands s.aux v = .ok n ∧ n ≤ zusatMaxVar ∧
      (satReserve v).run s = (.ok (), s.withHandle (Handle.reserved s.handle n))) := by
  rcases satReserve_start s v with ⟨e, hh, hrun⟩ | ⟨n, hh, hn, hrun⟩
  · exact .inl ⟨e, hh, hrun⟩
  · have hreserve := run_onHandle (Handle.run_zusatReserve hv hn)
    exact .inr ⟨n, hh, hn, by rw [hrun, hreserve, andThen_ok, run_pure]⟩

/-! ## On a solver left in a search -/

section Unfinished
variable {s : Session}

/-- The first clause is refused at its first literal. -/
theorem run_addClauses_solving (hs : s.solver.state = .solving) {cls : List (List ℤ)}
    (hcls : ∀ cl ∈ cls, ∀ l ∈ cl, ValidLit l) :
    (cls = [] ∧ (addClauses cls).run s = (.ok (), s)) ∨ (cls ≠ [] ∧ (addClauses cls).run s =
      (.error (Cadical.invalidState "add"), s.withHandle (Handle.invalidate s.handle))) := by
  cases cls with
  | nil => exact .inl ⟨rfl, rfl⟩
  | cons cl cls =>
    have hadd := Handle.run_zusatAddClause_solving (h := s.handle) hs (hcls cl (List.mem_cons_self ..))
    refine .inr ⟨List.cons_ne_nil cl cls, run_addClauses_of ?_⟩
    rw [run_each_cons, hadd, andThen_error]

theorem satAdd_cases_solving (hs : s.solver.state = .solving) (x : RArg) :
    (∃ e, addHands s.aux x = .error e ∧ (satAdd x).run s = (.error e, s)) ∨
    (addHands s.aux x = .ok [] ∧ (satAdd x).run s = (.ok (), s)) ∨
    (∃ cls, addHands s.aux x = .ok cls ∧ cls ≠ [] ∧ (satAdd x).run s =
      (.error (Cadical.invalidState "add"), s.withHandle (Handle.invalidate s.handle))) := by
  rw [run_satAdd]
  cases hh : addHands s.aux x with
  | error e => exact .inl ⟨e, rfl, rfl⟩
  | ok cls =>
    rw [run_bind, run_ofExcept_ok, andThen_ok]
    rcases run_addClauses_solving hs (addHands_ok hh).2.2 with ⟨rfl, hrun⟩ | ⟨hne, hrun⟩
    · exact .inr (.inl ⟨rfl, hrun⟩)
    · exact .inr (.inr ⟨cls, rfl, hne, hrun⟩)

/-- However the solver was left, an accepted list has been taken. -/
theorem satAdd_accepted (hs : s.solver.state.valid = true ∨ s.solver.state = .solving) {x : RArg}
    {s' : Session} (h : (satAdd x).run s = (.ok (), s')) :
    ∃ cls, addHands s.aux x = .ok cls ∧ s' = s.withHandle (cls.foldl Handle.addedTo s.handle) := by
  rcases hs with hv | hsolving
  · rcases satAdd_cases hv x with ⟨e, -, hrun⟩ | ⟨cls, hh, -, hrun⟩ | ⟨cls, done, q, l, e, -, -, -, -, hrun⟩ <;>
      rw [hrun] at h <;> cases h
    exact ⟨cls, hh, rfl⟩
  · rcases satAdd_cases_solving hsolving x with ⟨e, -, hrun⟩ | ⟨hh, hrun⟩ | ⟨cls, -, -, hrun⟩ <;>
      rw [hrun] at h <;> cases h
    exact ⟨[], hh, rfl⟩

theorem satConstrain_cases_solving (hs : s.solver.state = .solving) (v : RValue) :
    (∃ e, constrainHands s.aux v = .error e ∧ (satConstrain v).run s = (.error e, s)) ∨
    (∃ p, constrainHands s.aux v = .ok p ∧ (satConstrain v).run s =
      (.error (Cadical.invalidState "constrain"), s.withHandle (Handle.invalidate s.handle))) := by
  rw [run_satConstrain]
  cases hh : constrainHands s.aux v with
  | error e => exact .inl ⟨e, rfl, rfl⟩
  | ok p =>
    have hrun := Handle.run_zusatConstrain_solving (h := s.handle) hs (constrainHands_ok hh).2.2
    exact .inr ⟨p, rfl, by rw [run_bind, run_ofExcept_ok, andThen_ok, run_onHandle hrun]⟩

theorem satReserve_cases_solving (hs : s.solver.state = .solving) (v : RValue) :
    (∃ e, reserveHands s.aux v = .error e ∧ (satReserve v).run s = (.error e, s)) ∨
    (∃ n, reserveHands s.aux v = .ok n ∧ n ≤ s.solver.maxVar ∧ (satReserve v).run s = (.ok (), s)) ∨
    (∃ n, reserveHands s.aux v = .ok n ∧ s.solver.maxVar < n ∧ (satReserve v).run s =
      (.error (Cadical.invalidState "declare_more_variables"),
        s.withHandle (Handle.invalidate s.handle))) := by
  rcases satReserve_start s v with ⟨e, hh, hrun⟩ | ⟨n, hh, hn, hrun⟩
  · exact .inl ⟨e, hh, hrun⟩
  · have hreserve := Handle.run_zusatReserve_solving (h := s.handle) hs hn
    by_cases hlt : s.solver.maxVar < n
    · rw [if_pos hlt] at hreserve
      exact .inr (.inr ⟨n, hh, hlt, by rw [hrun, run_onHandle hreserve, andThen_error]⟩)
    · rw [if_neg hlt] at hreserve
      exact .inr (.inl ⟨n, hh, Nat.le_of_not_lt hlt, by
        rw [hrun, run_onHandle hreserve, andThen_ok, run_pure, withHandle_self]⟩)

end Unfinished

end Session
end Zusat
