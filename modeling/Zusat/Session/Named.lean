import Zusat.Session.Invariants

/-! # Variables the caller has named

The floor of a block of auxiliary variables is CaDiCaL's variable count and the literals of the call
itself. A variable named earlier is out of reach only if the call that named it made CaDiCaL know it.
Every accepted clause, constraint and assumption does; a cardinality call does when its clauses mention
its literals, which they do not when the bound is vacuous. -/

namespace Zusat
open Foundations Foundations.Prog
set_option autoImplicit false

namespace Session

/-- The literals of a call: those of its clauses, its constraint, its bound or its assumptions. -/
def literalsOf : Call → List ℤ
  | .add x => ((addedClauses x).toOption.getD []).flatten
  | .constrain literals => (asLiterals "literals" literals).toOption.getD []
  | .cardinality _ literals _ _ => (asLiterals "literals" literals).toOption.getD []
  | .solve assumptions _ => (asLiterals "assumptions" assumptions).toOption.getD []
  | _ => []

/-- The call was accepted. -/
def accepted (r : Except RError CallResult) : Prop := ∃ a, r = .ok a

/-- A cardinality call whose clauses do not mention its literals names known variables only. No block
ever reaches down to variables 1 and 2. -/
def namesKnown (s : Session) : Call → Prop
  | .cardinality b literals k _ => ∀ ls n, asLiterals "literals" literals = .ok ls →
      checkBound k = .ok n → b.mentions ls.length n = false →
        ∀ l ∈ ls, l.natAbs ≤ max 2 s.solver.maxVar
  | _ => True

/-- The variable is out of reach of every later block. -/
def Settled (s : Session) (v : ℕ) : Prop := ¬InAux s.aux v ∧ v ≤ max 2 s.solver.maxVar

theorem settled_step {s : Session} (hs : RangesKnown s) {v : ℕ} (hv : Settled s v) (c : Call) :
    Settled (step s c).2 v :=
  ⟨not_inAux_step hs hv.1 hv.2 c,
    le_trans hv.2 (max_le_max le_rfl (step_change hs.settled c).maxVar)⟩

/-! ## Accepted calls -/

section Accepted
variable {s : Session}

theorem settled_of_known {s' : Session} {v : ℕ} {ls : List ℤ} (hmem : v ∈ ls.map Int.natAbs)
    (haux : s'.aux = s.aux) (hfree : ∀ l ∈ ls, ¬InAux s.aux l.natAbs)
    (hmax : topVar ls ≤ s'.solver.maxVar) : Settled s' v := by
  obtain ⟨l, hl, rfl⟩ := List.mem_map.mp hmem
  refine ⟨?_, le_trans (natAbs_le_topVar hl) (le_trans hmax (le_max_right ..))⟩
  rw [haux]
  exact hfree l hl

theorem accepted_run {m : SessionM Unit}
    (h : accepted ((m >>= fun _ => pure CallResult.unit).run s).1) :
    m.run s = (.ok (), ((m >>= fun _ => pure CallResult.unit).run s).2) := by
  obtain ⟨a, ha⟩ := h
  obtain ⟨u, s', hm, hret⟩ := run_bind_ok.mp (Prod.ext ha rfl :
    (m >>= fun _ => pure CallResult.unit).run s = (.ok a, _))
  rw [run_pure] at hret
  rw [hm, ← (Prod.ext_iff.mp hret).2]

theorem settled_add (hs : RangesKnown s) {x : RArg} (hacc : accepted (step s (.add x)).1) {v : ℕ}
    (hv : v ∈ (literalsOf (.add x)).map Int.natAbs) : Settled (step s (.add x)).2 v := by
  have hrun : (satAdd x).run s = (.ok (), (step s (.add x)).2) := accepted_run hacc
  obtain ⟨cls, hh, hs'⟩ := satAdd_accepted hs.settled.valid_or_solving hrun
  obtain ⟨hcls, hfree, -⟩ := addHands_ok hh
  rw [literalsOf, hcls] at hv
  rw [hs']
  refine settled_of_known hv rfl ((checkNotAux_ok_iff hs.increasing _ _).mp hfree) ?_
  rw [solver, withHandle_handle, Handle.foldl_addedTo_solver, Cadical.foldl_takeClause_maxVar]
  exact le_max_right ..

theorem settled_constrain (hs : RangesKnown s) {x : RValue} (hacc : accepted (step s (.constrain x)).1)
    {v : ℕ} (hv : v ∈ (literalsOf (.constrain x)).map Int.natAbs) :
    Settled (step s (.constrain x)).2 v := by
  have hrun : (satConstrain x).run s = (.ok (), (step s (.constrain x)).2) := accepted_run hacc
  have hvalid : s.solver.state.valid = true := hs.settled.valid_or_solving.resolve_right fun hsolving => by
    rcases satConstrain_cases_solving hsolving x with ⟨e, -, h⟩ | ⟨p, -, h⟩ <;> rw [h] at hrun <;> cases hrun
  rcases satConstrain_cases hvalid x with
    ⟨e, -, h⟩ | ⟨p, hh, -, h⟩ | ⟨p, q, l, r, e, -, -, -, -, -, -, h⟩
  · rw [h] at hrun
    cases hrun
  · obtain ⟨hp, hfree, -⟩ := constrainHands_ok hh
    rw [literalsOf, hp] at hv
    have hs' : (step s (.constrain x)).2 = s.withHandle (constrainedBy s.handle p) := by
      rw [h] at hrun
      exact (Prod.ext_iff.mp hrun).2.symm
    rw [hs']
    exact settled_of_known hv rfl ((checkNotAux_ok_iff hs.increasing _ _).mp hfree) (le_max_right ..)
  · rw [h] at hrun
    cases hrun

theorem settled_solve (hs : RangesKnown s) {x : RValue} {ask : Oracle}
    (hacc : accepted (step s (.solve x ask)).1) {v : ℕ}
    (hv : v ∈ (literalsOf (.solve x ask)).map Int.natAbs) : Settled (step s (.solve x ask)).2 v := by
  obtain ⟨a, ha⟩ := hacc
  have hstep : step s (.solve x ask) = (.ok a, (step s (.solve x ask)).2) := Prod.ext ha rfl
  obtain ⟨sol, s', hrun, hret⟩ := run_bind_ok.mp hstep
  rw [run_pure] at hret
  rw [← (Prod.ext_iff.mp hret).2]
  have hvalid : s.solver.state.valid = true := hs.settled.valid_or_solving.resolve_right fun hsolving => by
    rcases satSolve_cases_solving hsolving x with ⟨e, -, h⟩ | ⟨p, fn, h', -, -, h⟩ <;>
      rw [h] at hrun <;> cases hrun
  rcases satSolve_cases hvalid x ask with
    ⟨e, -, h⟩ | ⟨p, hh, -, -, -, h⟩ | ⟨p, q, l, r, e, -, -, -, -, -, -, h⟩ | ⟨-, -, t, h⟩ |
      ⟨p, e, -, -, -, -, h⟩
  · rw [h] at hrun
    cases hrun
  · obtain ⟨hp, hfree, -⟩ := solveHands_ok hh
    rw [literalsOf, hp] at hv
    rw [h] at hrun
    split at hrun
    · cases hrun
    · have hlook := (looks_newSolution (answerOf s.solver p ask).res).snd
        (s.withHandle (searched s.handle p ask))
      rw [hrun] at hlook
      change s' = _ at hlook
      rw [hlook]
      refine settled_of_known hv rfl ((checkNotAux_ok_iff hs.increasing _ _).mp hfree) ?_
      have hmax := (Cadical.change_afterSearch (K := fun _ => True) (L := fun _ => True) (N := fun _ => True)
        (c := assuming s.solver p) false ask).maxVar
      rw [assuming_maxVar] at hmax
      exact le_trans (le_max_right ..) hmax
  · rw [h] at hrun
    cases hrun
  · rw [h] at hrun
    cases hrun
  · rw [h] at hrun
    cases hrun

theorem settled_cardinality (hs : RangesKnown s) {b : Bound} {x k e : RValue}
    (hacc : accepted (step s (.cardinality b x k e)).1)
    (hcond : namesKnown s (.cardinality b x k e)) {v : ℕ}
    (hv : v ∈ (literalsOf (.cardinality b x k e)).map Int.natAbs) :
    Settled (step s (.cardinality b x k e)).2 v := by
  have hrun : (satCardinality b x k e).run s = (.ok (), (step s (.cardinality b x k e)).2) :=
    accepted_run hacc
  obtain ⟨a, hh, hs'⟩ := satCardinality_accepted hs.settled.valid_or_solving hrun
  have hplan := cardHands_ok hh
  rw [literalsOf, hplan.lits] at hv
  have hfree := (checkNotAux_ok_iff hs.increasing _ _).mp hplan.free
  obtain ⟨l, hl, rfl⟩ := List.mem_map.mp hv
  have hmax := encodedBy_maxVar s a
  rw [hs']
  refine ⟨?_, ?_⟩
  · rw [encodedBy, recordAux]
    split
    · rintro ⟨r, hr, hfirst, hlast⟩
      rcases List.mem_append.mp hr with hr | hr
      · exact hfree l hl ⟨r, hr, hfirst, hlast⟩
      · rw [List.mem_singleton.mp hr] at hfirst
        have hle := natAbs_le_auxFloor s.solver.maxVar l hl
        exact absurd hfirst (Nat.not_le.mpr (Nat.lt_succ_of_le hle))
    · exact hfree l hl
  · cases hm : b.mentions a.1.length a.2.1 with
    | true =>
      obtain ⟨enc, henc⟩ := hplan.encode
      obtain ⟨cl, hcl, y, hy, hyl⟩ := b.encode_mentions hm henc l hl
      have hle := natAbs_le_topVar (List.mem_flatten.mpr ⟨cl, hcl, hy⟩)
      omega
    | false =>
      have hle := hcond a.1 a.2.1 hplan.lits hplan.bound hm l hl
      omega

end Accepted

theorem settled_of_accepted {s : Session} (hs : RangesKnown s) {c : Call} (hacc : accepted (step s c).1)
    (hcond : namesKnown s c) {v : ℕ} (hv : v ∈ (literalsOf c).map Int.natAbs) :
    Settled (step s c).2 v := by
  cases c with
  | add x => exact settled_add hs hacc hv
  | constrain x => exact settled_constrain hs hacc hv
  | cardinality b x k e => exact settled_cardinality hs hacc hcond hv
  | solve x ask => exact settled_solve hs hacc hv
  | _ => cases hv

/-! ## Whole runs -/

theorem settled_run {s : Session} (hs : RangesKnown s) {v : ℕ} (hv : Settled s v) (cs : List Call) :
    Settled (run step s cs) v := by
  have hall : Every step (fun _ _ _ => True) s cs :=
    every_of_forall step (fun _ _ _ _ => trivial) s
  exact (run_invariant step (I := fun s => RangesKnown s ∧ Settled s v)
    (fun _ c h _ => ⟨rangesKnown_step h.1 c, settled_step h.1 h.2 c⟩) ⟨hs, hv⟩ hall).2

/-- A variable of an accepted call is never taken as an auxiliary variable later, and so never refused
as one, when the call named known variables or its clauses mention them. -/
theorem named_never_auxiliary (before : List Call) (c : Call) (later : List Call)
    (hacc : accepted (step (after before) c).1) (hcond : namesKnown (after before) c) (v : ℕ)
    (hv : v ∈ (literalsOf c).map Int.natAbs) :
    ¬InAux (after (before ++ c :: later)).aux v ∧ ∀ lits arg arg',
      checkNotAux (after (before ++ c :: later)).aux lits arg ≠ .error (.auxVariable arg' v) := by
  have hranges := rangesKnown_after before
  have hset : Settled (after (before ++ c :: later)) v := by
    rw [after, run_append]
    exact settled_run (rangesKnown_step hranges c) (settled_of_accepted hranges hacc hcond hv) later
  refine ⟨hset.1, fun lits arg arg' h => ?_⟩
  obtain ⟨l, -, haux, he⟩ := checkNotAux_error (rangesKnown_after _).increasing h
  cases he
  exact hset.1 haux

/-- At most one of variables 1 and 2, with the sequential encoding. -/
def pairCall : Call :=
  .cardinality .atMost (.ints [1, 2]) (.ints [1]) (.chr [some "sequential"])

/-- At most five of five variables. -/
def vacuousCall : Call := .cardinality .atMost (.ints [1, 2, 3, 4, 5]) (.ints [5]) .null

theorem named_never_auxiliary_pair :
    accepted (step (after []) pairCall).1 ∧ namesKnown (after []) pairCall ∧
      ¬InAux (after ([] ++ pairCall :: [vacuousCall])).aux 2 := by
  have hacc : accepted (step (after []) pairCall).1 := ⟨.unit, rfl⟩
  have hcond : namesKnown (after []) pairCall := by
    intro ls n hls hn hm
    have hls' : ls = [1, 2] := (Except.ok.inj hls).symm
    have hn' : n = 1 := (Except.ok.inj hn).symm
    rw [hls', hn'] at hm
    cases hm
  exact ⟨hacc, hcond, (named_never_auxiliary [] pairCall [vacuousCall] hacc hcond 2 (by decide)).1⟩

/-- A bound that holds trivially hands over nothing, and the next block takes one of its variables. -/
theorem vacuous_bound_loses_variable :
    accepted (step new vacuousCall).1 ∧ 3 ∈ (literalsOf vacuousCall).map Int.natAbs ∧
      accepted (step (after [vacuousCall]) pairCall).1 ∧
      InAux (after [vacuousCall, pairCall]).aux 3 ∧
      checkNotAux (after [vacuousCall, pairCall]).aux [3] "x" = .error (.auxVariable "x" 3) :=
  ⟨⟨.unit, rfl⟩, by decide, ⟨.unit, rfl⟩, by decide, by decide⟩

end Session
end Zusat
