import Zusat.Cardinality.Encoders
import Zusat.Session.Effects

/-! # The cardinality calls in closed form

What a cardinality call hands over is decided before anything is added: its literals, its bound and an
encoding above the floor, with the contract `Encodes`. -/

namespace Zusat
open Foundations Foundations.Prog
set_option autoImplicit false

namespace Session

/-- The arguments of a cardinality call, validated in the order of the source. -/
def cardinalityArgs (literals k encoding : RValue) : Except RError (List ℤ × ℕ × Encoding) := do
  let lits ← asLiterals "literals" literals
  let lits ← checkDistinct "literals" lits
  let enc ← matchEncoding encoding
  let k ← checkBound k
  return (lits, k, enc)

/-- The literals, the bound and the encoding of a cardinality call that gets as far as adding. -/
def cardHands (aux : List AuxRange) (nVars : ℕ) (b : Bound) (literals k encoding : RValue) :
    Except RError (List ℤ × ℕ × Encoded) := do
  let a ← cardinalityArgs literals k encoding
  checkNotAux aux a.1 "literals"
  let enc ← b.encode a.1 a.2.1 a.2.2 (auxFloor nVars a.1)
  return (a.1, a.2.1, enc)

theorem checkDistinct_ok {arg : String} {ls ls' : List ℤ} (h : checkDistinct arg ls = .ok ls') :
    ls' = ls := by
  rw [checkDistinct] at h
  split at h
  · cases h
  · exact (Except.ok.inj h).symm

theorem cardinalityArgs_ok {literals k encoding : RValue} {a : List ℤ × ℕ × Encoding}
    (h : cardinalityArgs literals k encoding = .ok a) :
    asLiterals "literals" literals = .ok a.1 ∧ checkDistinct "literals" a.1 = .ok a.1 ∧
      matchEncoding encoding = .ok a.2.2 ∧ checkBound k = .ok a.2.1 := by
  obtain ⟨ls, hls, h⟩ := except_bind_ok.mp h
  obtain ⟨ls', hd, h⟩ := except_bind_ok.mp h
  obtain ⟨e, he, h⟩ := except_bind_ok.mp h
  obtain ⟨k', hk, h⟩ := except_bind_ok.mp h
  obtain rfl := Except.ok.inj h
  obtain rfl := checkDistinct_ok hd
  exact ⟨hls, hd, he, hk⟩

theorem firstRepeat_none {seen vs : List ℕ} (h : firstRepeat seen vs = none) :
    vs.Nodup ∧ ∀ v ∈ vs, v ∉ seen := by
  induction vs generalizing seen with
  | nil => exact ⟨List.nodup_nil, by simp⟩
  | cons v vs ih =>
    rw [firstRepeat] at h
    split_ifs at h with hseen
    obtain ⟨hd, hv⟩ := ih h
    refine ⟨List.nodup_cons.mpr ⟨fun hm => hv v hm (List.mem_cons_self ..), hd⟩, fun w hw => ?_⟩
    rcases List.mem_cons.mp hw with rfl | hw
    · exact hseen
    · exact fun hs => hv w hw (List.mem_cons_of_mem v hs)

theorem checkDistinct_nodup {arg : String} {ls ls' : List ℤ} (h : checkDistinct arg ls = .ok ls') :
    (ls.map Int.natAbs).Nodup := by
  rw [checkDistinct] at h
  split at h
  · cases h
  · next hnone => exact (firstRepeat_none hnone).1

theorem natAbs_le_auxFloor (n : ℕ) {ls : List ℤ} : ∀ l ∈ ls, l.natAbs ≤ auxFloor n ls :=
  fun _ hl => le_trans (natAbs_le_topVar hl) (le_max_right ..)

/-- Everything the later modules use of a cardinality call that gets as far as adding. -/
structure CardPlan (aux : List AuxRange) (nVars : ℕ) (b : Bound) (literals k : RValue)
    (a : List ℤ × ℕ × Encoded) : Prop where
  lits : asLiterals "literals" literals = .ok a.1
  bound : checkBound k = .ok a.2.1
  free : checkNotAux aux a.1 "literals" = .ok ()
  distinct : (a.1.map Int.natAbs).Nodup
  valid : ∀ l ∈ a.1, ValidLit l
  encode : ∃ e, b.encode a.1 a.2.1 e (auxFloor nVars a.1) = .ok a.2.2
  encodes : Encodes a.1 (fun α => b.Holds (trueCount α a.1) a.2.1) (auxFloor nVars a.1) a.2.2
  clauses : ∀ cl ∈ a.2.2.clauses, ∀ l ∈ cl, ValidLit l

theorem cardHands_ok {aux : List AuxRange} {nVars : ℕ} {b : Bound} {literals k encoding : RValue}
    {a : List ℤ × ℕ × Encoded} (h : cardHands aux nVars b literals k encoding = .ok a) :
    CardPlan aux nVars b literals k a := by
  obtain ⟨args, hargs, h⟩ := except_bind_ok.mp h
  obtain ⟨_, hfree, h⟩ := except_bind_ok.mp h
  obtain ⟨enc, henc, h⟩ := except_bind_ok.mp h
  obtain rfl := Except.ok.inj h
  obtain ⟨hlits, hdistinct, -, hbound⟩ := cardinalityArgs_ok hargs
  have hvalid := asLiterals_valid hlits
  have hspec := b.encode_spec (fun l hl => (hvalid l hl).1) (natAbs_le_auxFloor nVars) henc
  refine ⟨hlits, hbound, hfree, checkDistinct_nodup hdistinct, hvalid, ⟨_, henc⟩, hspec,
    fun cl hcl l hl => ?_⟩
  obtain ⟨h0, ⟨x, hx, hxl⟩ | hb⟩ := hspec.lits cl hcl l hl
  · exact ⟨h0, hxl ▸ (hvalid x hx).2⟩
  · have := hspec.top_le
    have := hb.1
    have := hb.2
    exact ⟨h0, by omega⟩

theorem mapM_asLiterals_ints {arg : String} {cls : List (List ℤ)}
    (h : ∀ cl ∈ cls, ∀ l ∈ cl, ValidLit l) :
    (cls.mapM fun cl => asLiterals arg (.ints cl)) = .ok cls := by
  induction cls with
  | nil => rfl
  | cons cl cls ih =>
    rw [List.mapM_cons, asLiterals_ints (h cl (List.mem_cons_self ..)),
      ih fun c hc => h c (List.mem_cons_of_mem cl hc)]
    rfl

theorem run_zusatNVars {s : Session}
    (hs : s.handle.solver.state.valid = true ∨ s.handle.solver.state = .solving) :
    (onHandle Handle.zusatNVars).run s = (.ok s.handle.solver.maxVar, s) :=
  run_onHandle (Handle.run_call (Cadical.run_vars hs))

theorem run_satCardinality {s : Session}
    (hs : s.handle.solver.state.valid = true ∨ s.handle.solver.state = .solving) (b : Bound)
    (literals k encoding : RValue) :
    (satCardinality b literals k encoding).run s =
      (ofExcept (cardHands s.aux s.handle.solver.maxVar b literals k encoding) >>= fun a => do
        addClauses a.2.2.clauses
        modify (recordAux (auxFloor s.handle.solver.maxVar a.1) a.2.2.top)).run s := by
  have hargs : (satCardinality b literals k encoding).run s =
      (ofExcept (cardinalityArgs literals k encoding) >>= fun a =>
        addCardinality a.1 (b.encode a.1 a.2.1 a.2.2)).run s := by
    rw [satCardinality, cardinalityArgs, run_ofExcept_bind]
    cases asLiterals "literals" literals with
    | error e => rfl
    | ok lits =>
      change (ofExcept (checkDistinct "literals" lits) >>= _).run s =
        (ofExcept (checkDistinct "literals" lits >>= _) >>= _).run s
      cases checkDistinct "literals" lits with
      | error e => rfl
      | ok lits => cases matchEncoding encoding <;> cases checkBound k <;> rfl
  cases hhands : cardHands s.aux s.handle.solver.maxVar b literals k encoding with
  | error e =>
    rcases except_bind_error.mp hhands with h | ⟨a, ha, h⟩
    · rw [hargs, h]
      rfl
    · rw [hargs, ha]
      rcases except_bind_error.mp h with h | ⟨_, hc, h⟩
      · exact (run_refuseAux_bind _ _ _ s).trans (by rw [h]; rfl)
      · rcases except_bind_error.mp h with h | ⟨enc, -, h⟩
        · refine (run_refuseAux_bind _ _ _ s).trans ?_
          rw [hc, run_bind, run_ofExcept_ok, andThen_ok, run_bind, run_zusatNVars hs, andThen_ok, h]
          rfl
        · cases h
  | ok a =>
    have hplan := cardHands_ok hhands
    obtain ⟨args, ha, h⟩ := except_bind_ok.mp hhands
    obtain ⟨_, hc, h⟩ := except_bind_ok.mp h
    obtain ⟨enc, henc, h⟩ := except_bind_ok.mp h
    obtain rfl := Except.ok.inj h
    rw [hargs, ha]
    refine (run_refuseAux_bind _ _ _ s).trans ?_
    rw [hc, run_bind, run_ofExcept_ok, andThen_ok, run_bind, run_zusatNVars hs, andThen_ok, henc,
      run_bind, run_ofExcept_ok, andThen_ok, run_bind, mapM_asLiterals_ints hplan.clauses]
    rfl

/-- The session after a cardinality call whose encoding was taken. -/
def encodedBy (s : Session) (a : List ℤ × ℕ × Encoded) : Session :=
  recordAux (auxFloor s.handle.solver.maxVar a.1) a.2.2.top
    (s.withHandle (a.2.2.clauses.foldl Handle.addedTo s.handle))

theorem encodedBy_maxVar (s : Session) (a : List ℤ × ℕ × Encoded) :
    (encodedBy s a).solver.maxVar =
      max s.solver.maxVar (topVar a.2.2.clauses.flatten) := by
  rw [← Cadical.foldl_takeClause_maxVar, ← Handle.foldl_addedTo_solver, encodedBy, recordAux]
  split <;> rfl

theorem satCardinality_cases {s : Session} (hv : s.handle.solver.state.valid = true) (b : Bound)
    (literals k encoding : RValue) :
    (∃ e, cardHands s.aux s.handle.solver.maxVar b literals k encoding = .error e ∧
      (satCardinality b literals k encoding).run s = (.error e, s)) ∨
    (∃ a, cardHands s.aux s.handle.solver.maxVar b literals k encoding = .ok a ∧
      (∀ cl ∈ a.2.2.clauses, ∀ l ∈ cl, s.handle.solver.takes l = true) ∧
      (satCardinality b literals k encoding).run s = (.ok (), encodedBy s a)) ∨
    (∃ a done q l e, cardHands s.aux s.handle.solver.maxVar b literals k encoding = .ok a ∧
      StopsAt s.handle.solver a.2.2.clauses done q l ∧ RError.fromCadical e = true ∧
      e.isContract = !s.handle.solver.addable l ∧ (satCardinality b literals k encoding).run s =
        (.error e, s.withHandle (stoppedAt s.handle done q l))) := by
  rw [run_satCardinality (.inl hv)]
  cases hh : cardHands s.aux s.handle.solver.maxVar b literals k encoding with
  | error e => exact .inl ⟨e, rfl, rfl⟩
  | ok a =>
    rw [run_bind, run_ofExcept_ok, andThen_ok, run_bind]
    rcases run_addClauses hv (cardHands_ok hh).clauses with
      ⟨hall, hrun⟩ | ⟨done, q, l, e, hs, he, hc, hrun⟩
    · exact .inr (.inl ⟨a, rfl, hall, by rw [hrun]; rfl⟩)
    · exact .inr (.inr ⟨a, done, q, l, e, rfl, hs, he, hc, by rw [hrun]; rfl⟩)

/-- Without clauses there are no variables to record. -/
theorem CardPlan.top_le_of_nil {aux : List AuxRange} {nVars : ℕ} {b : Bound} {literals k : RValue}
    {a : List ℤ × ℕ × Encoded} (h : CardPlan aux nVars b literals k a) (hnil : a.2.2.clauses = []) :
    ¬auxFloor nVars a.1 < a.2.2.top := by
  intro hlt
  obtain ⟨cl, hcl, -⟩ := h.encodes.uses a.2.2.top ⟨hlt, le_rfl⟩
  rw [hnil] at hcl
  cases hcl

/-- A search left unfinished refuses every clause; without one nothing happens. -/
theorem satCardinality_cases_solving {s : Session} (hs : s.handle.solver.state = .solving) (b : Bound)
    (literals k encoding : RValue) :
    (∃ e, cardHands s.aux s.handle.solver.maxVar b literals k encoding = .error e ∧
      (satCardinality b literals k encoding).run s = (.error e, s)) ∨
    (∃ a, cardHands s.aux s.handle.solver.maxVar b literals k encoding = .ok a ∧ a.2.2.clauses = [] ∧
      encodedBy s a = s ∧ (satCardinality b literals k encoding).run s = (.ok (), s)) ∨
    (∃ a, cardHands s.aux s.handle.solver.maxVar b literals k encoding = .ok a ∧ a.2.2.clauses ≠ [] ∧
      (satCardinality b literals k encoding).run s =
        (.error (Cadical.invalidState "add"), s.withHandle (Handle.invalidate s.handle))) := by
  rw [run_satCardinality (.inr hs)]
  cases hh : cardHands s.aux s.handle.solver.maxVar b literals k encoding with
  | error e => exact .inl ⟨e, rfl, rfl⟩
  | ok a =>
    have hplan := cardHands_ok hh
    rw [run_bind, run_ofExcept_ok, andThen_ok, run_bind]
    rcases run_addClauses_solving hs hplan.clauses with ⟨hnil, hrun⟩ | ⟨hne, hrun⟩
    · have hno := hplan.top_le_of_nil hnil
      have hencoded : encodedBy s a = s := by
        rw [encodedBy, recordAux, dif_neg hno, hnil]
        rfl
      refine .inr (.inl ⟨a, rfl, hnil, hencoded, ?_⟩)
      rw [hrun, andThen_ok, run_modify, recordAux, dif_neg hno]
    · exact .inr (.inr ⟨a, rfl, hne, by rw [hrun]; rfl⟩)

/-- However the solver was left, the encoding of an accepted call has been taken. -/
theorem satCardinality_accepted {s s' : Session}
    (hs : s.handle.solver.state.valid = true ∨ s.handle.solver.state = .solving) {b : Bound}
    {literals k encoding : RValue} (h : (satCardinality b literals k encoding).run s = (.ok (), s')) :
    ∃ a, cardHands s.aux s.handle.solver.maxVar b literals k encoding = .ok a ∧ s' = encodedBy s a := by
  rcases hs with hv | hsolving
  · rcases satCardinality_cases hv b literals k encoding with
      ⟨e, -, hrun⟩ | ⟨a, hh, -, hrun⟩ | ⟨a, done, q, l, e, -, -, -, -, hrun⟩ <;>
      rw [hrun] at h <;> cases h
    exact ⟨a, hh, rfl⟩
  · rcases satCardinality_cases_solving hsolving b literals k encoding with
      ⟨e, -, hrun⟩ | ⟨a, hh, -, hencoded, hrun⟩ | ⟨a, -, -, hrun⟩ <;>
      rw [hrun] at h <;> cases h
    exact ⟨a, hh, hencoded.symm⟩

/-! ## Refusals -/

theorem matchEncoding_error {v : RValue} {e : RError} (h : matchEncoding v = .error e) :
    e.isStop = true := by
  rw [matchEncoding.eq_def] at h
  split at h
  · cases h
  · split_ifs at h
    split at h
    · split at h
      · cases h
      · rw [← Except.error.inj h]; rfl
    · rw [← Except.error.inj h]; rfl
    · rw [← Except.error.inj h]; rfl
  · rw [← Except.error.inj h]; rfl

theorem checkBound_error {v : RValue} {e : RError} (h : checkBound v = .error e) :
    e.isStop = true := by
  rw [checkBound.eq_def] at h
  split at h
  · split_ifs at h <;> rw [← Except.error.inj h] <;> rfl
  · rw [← Except.error.inj h]; rfl

theorem checkDistinct_error {arg : String} {ls : List ℤ} {e : RError}
    (h : checkDistinct arg ls = .error e) : e.isStop = true := by
  rw [checkDistinct] at h
  split at h
  · rw [← Except.error.inj h]; rfl
  · cases h

/-- The refusal of a counter that would go past the limit. -/
def needsVariables (needed : ℕ) : RError :=
  .stop (s!"this encoding needs auxiliary variables up to {needed}, " ++
    s!"but variables must be at most {zusatMaxVar}")

theorem encodeAtMost_error {ls : List ℤ} {k top : ℕ} {enc : Encoding} {e : RError}
    (h : encodeAtMost ls k enc top = .error e) : ∃ needed, zusatMaxVar < needed ∧ e = needsVariables needed := by
  rw [encodeAtMost] at h
  split_ifs at h with hkn hk0 hpair hmax
  exact ⟨_, hmax, (Except.error.inj h).symm⟩

theorem encodeAtLeast_error {ls : List ℤ} {k top : ℕ} {enc : Encoding} {e : RError}
    (h : encodeAtLeast ls k enc top = .error e) :
    ∃ needed, zusatMaxVar < needed ∧ e = needsVariables needed := by
  rw [encodeAtLeast] at h
  split_ifs at h
  exact encodeAtMost_error h

theorem Bound.encode_needs {b : Bound} {ls : List ℤ} {k top : ℕ} {enc : Encoding} {e : RError}
    (h : b.encode ls k enc top = .error e) : ∃ needed, zusatMaxVar < needed ∧ e = needsVariables needed := by
  cases b with
  | atMost => exact encodeAtMost_error h
  | atLeast => exact encodeAtLeast_error h
  | exactly =>
    rcases except_bind_error.mp h with h | ⟨lower, -, h⟩
    · exact encodeAtLeast_error h
    · rcases except_bind_error.mp h with h | ⟨upper, -, h⟩
      · exact encodeAtMost_error h
      · cases h

theorem Bound.encode_error {b : Bound} {ls : List ℤ} {k top : ℕ} {enc : Encoding} {e : RError}
    (h : b.encode ls k enc top = .error e) : e.isStop = true := by
  obtain ⟨needed, -, rfl⟩ := b.encode_needs h
  rfl

end Session
end Zusat
