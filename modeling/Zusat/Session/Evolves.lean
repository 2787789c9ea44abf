import Zusat.Handle.Evolves
import Zusat.Session.Entries

/-! # How the exported calls change a session

`Keeps A K L N s s'`: from a session whose auxiliary ranges are `A`, the ranges are still `A` and the
solver has changed as `Cadical.Evolves K L N` says. Every exported call except a cardinality constraint
moves along it, however it ends, when `L` has the literals that pass `check_not_aux`. -/

namespace Zusat
open Foundations Foundations.Prog
set_option autoImplicit false

namespace Session

def Keeps (A : List AuxRange) (K L : ℤ → Prop) (N : String → Prop) (s s' : Session) : Prop :=
  s.aux = A → s'.aux = A ∧ Cadical.Evolves K L N s.solver s'.solver

/-- The literals of `L` include all that `check_not_aux` lets through. -/
def Covers (A : List AuxRange) (L : ℤ → Prop) : Prop :=
  ∀ lits arg, checkNotAux A lits arg = .ok () → ∀ l ∈ lits, L l

section Keeps
variable {A : List AuxRange} {K L : ℤ → Prop} {N : String → Prop}

theorem along_keeps (A : List AuxRange) (K L : ℤ → Prop) (N : String → Prop) :
    Along (Keeps A K L N) (fun _ : RError => Keeps A K L N) :=
  .of_preorder (fun s hs => ⟨hs, (Cadical.along_evolves K L N).refl s.solver⟩)
    (fun h h' hs => ⟨(h' (h hs).1).1, (Cadical.along_evolves K L N).trans (h hs).2 (h' (h hs).1).2⟩)

theorem keeps_refl (s : Session) : Keeps A K L N s s := (along_keeps A K L N).refl s

theorem keeps_onHandle {α : Type} {m : HandleM α} (hm : Respects (Handle.Evolves K L N) m) :
    Respects (Keeps A K L N) (onHandle m) :=
  Moves.within hm (fun _ _ h hs => ⟨hs, h⟩) (fun _ _ _ h hs => ⟨hs, h⟩)

theorem keeps_ofExcept {α : Type} (x : Except RError α) :
    Respects (Keeps A K L N) (ofExcept x : SessionM α) :=
  (along_keeps A K L N).ofExcept fun _ _ => keeps_refl

theorem keeps_looks {α : Type} {m : SessionM α} (hm : Cadical.Looks m) :
    Respects (Keeps A K L N) m :=
  respects_of_snd fun s => by
    rw [hm.snd s]
    exact keeps_refl s

/-- What follows `check_not_aux` may hand over the literals it checked. -/
theorem keeps_refuseAux (hcov : Covers A L) {α : Type} {lits : List ℤ} {arg : String}
    {f : Unit → SessionM α} (hf : (∀ l ∈ lits, L l) → Respects (Keeps A K L N) (f ())) :
    Respects (Keeps A K L N) (refuseAux lits arg >>= f) := by
  refine respects_of_snd fun s hs => ?_
  rw [run_bind, refuseAux, run_bind, run_read, andThen_ok, hs]
  cases hcheck : checkNotAux A lits arg with
  | error e => exact keeps_refl s hs
  | ok u => exact (hf (hcov lits arg hcheck)).snd s hs

theorem keeps_addClauses {cls : List (List ℤ)} (h : ∀ cl ∈ cls, ∀ l ∈ cl, K l) :
    Respects (Keeps A K L N) (addClauses cls) :=
  (along_keeps A K L N).each fun cl hcl => keeps_onHandle (Handle.evolves_zusatAddClause (h cl hcl))

theorem keeps_satAdd (hcov : Covers A L) (hLK : ∀ l, L l → K l ∧ K (-l)) (x : RArg) :
    Respects (Keeps A K L N) (satAdd x) :=
  Moves.bindExcept (fun _ _ => keeps_refl) fun _ _ => keeps_refuseAux hcov fun hL =>
    keeps_addClauses fun cl hcl l hl => (hLK l (hL l (List.mem_flatten.mpr ⟨cl, hcl, hl⟩))).1

theorem keeps_satConstrain (hcov : Covers A L) (v : RValue) :
    Respects (Keeps A K L N) (satConstrain v) := by
  have law := along_keeps A K L N
  exact law.bind (law.require keeps_refl) fun _ => law.bind (keeps_ofExcept _) fun _ =>
    keeps_refuseAux hcov fun hL => keeps_onHandle (Handle.evolves_zusatConstrain hL)

theorem keeps_satReserve (n : RValue) : Respects (Keeps A K L N) (satReserve n) := by
  have law := along_keeps A K L N
  exact law.bind (keeps_ofExcept _) fun _ => law.bind law.read fun _ =>
    law.bind (keeps_ofExcept _) fun _ =>
      law.bind (keeps_onHandle (Handle.evolves_zusatReserve _)) fun _ => law.pure _

theorem keeps_satSolve (hcov : Covers A L) (assumptions : RValue) (ask : Oracle) :
    Respects (Keeps A K L N) (satSolve assumptions ask) := by
  have law := along_keeps A K L N
  exact law.bind (keeps_ofExcept _) fun _ => keeps_refuseAux hcov fun hL =>
    law.bind (keeps_onHandle (Handle.evolves_zusatSolve hL ask)) fun _ => keeps_looks (looks_newSolution _)

theorem keeps_satSimplify (ask : Oracle) : Respects (Keeps A K L N) (satSimplify ask) :=
  keeps_onHandle (Handle.evolves_zusatSimplify ask)

theorem keeps_satSetOption {name : List (Option String)} (hN : ∀ nm, name = [some nm] → N nm)
    (value : RValue) : Respects (Keeps A K L N) (satSetOption name value) := by
  have law := along_keeps A K L N
  refine Moves.bindExcept (fun _ _ => keeps_refl) fun o ho => law.bind (keeps_ofExcept _) fun _ =>
    law.bind law.read fun _ => law.bind (law.require keeps_refl) fun _ =>
      keeps_onHandle (Handle.evolves_zusatSetOption (hN o.name (optionNamed_name ho)) _)

theorem keeps_satLimit (name : List (Option String)) (value : RValue) :
    Respects (Keeps A K L N) (satLimit name value) := by
  have law := along_keeps A K L N
  exact law.bind (keeps_ofExcept _) fun _ => law.bind (keeps_ofExcept _) fun _ =>
    keeps_onHandle (Handle.evolves_zusatLimit _ _)

theorem keeps_satTraceProof (hb : N "binary") (hl : N "lrat") (path format binary : RValue)
    (canOpen : Bool) : Respects (Keeps A K L N) (satTraceProof path format binary canOpen) := by
  refine respects_satTraceProof (along_keeps A K L N) (fun nm hnm v => keeps_satSetOption ?_ v)
    (fun _ _ => keeps_onHandle (Handle.evolves_zusatTraceProof _ _)) path format binary canOpen
  rintro _ ⟨⟩
  rcases List.mem_pair.mp hnm with rfl | rfl
  · exact hb
  · exact hl

/-! ## Enumeration -/

section Enumeration
variable {vars : Option (List ℤ)} {assumptions : List ℤ} {constraint : Option (List ℤ)}

theorem keeps_satSolutionsRound (hcov : Covers A L) (hvars : ∀ n, ∀ v ∈ vars.getD (seqLen n),
    K v ∧ K (-v)) (hcon : ∀ l ∈ constraint.getD [], L l) (ask : Oracle)
    {again : Enumeration → SessionM Enumeration} (hagain : ∀ st, Respects (Keeps A K L N) (again st))
    (st : Enumeration) :
    Respects (Keeps A K L N) (satSolutionsRound vars assumptions constraint ask again st) := by
  have law := along_keeps A K L N
  refine law.bind (law.doIf (keeps_onHandle (Handle.evolves_zusatConstrain hcon))) fun _ =>
    law.bind (keeps_satSolve hcov _ ask) fun sol => ?_
  split
  · exact law.pure _
  · refine law.bind (keeps_looks looks_satNVars) fun n =>
      law.bind (keeps_looks (looks_satValue _)) fun value => ?_
    split
    · exact law.pure _
    · refine law.bind (keeps_addClauses fun cl hcl l hl => ?_) fun _ => hagain _
      rw [List.mem_singleton.mp hcl] at hl
      obtain ⟨v, hv, rfl | rfl⟩ := mem_blockingClause hl
      · exact (hvars n _ hv).1
      · exact (hvars n v hv).2

theorem keeps_satSolutionsLoop (hcov : Covers A L) (hvars : ∀ n, ∀ v ∈ vars.getD (seqLen n),
    K v ∧ K (-v)) (hcon : ∀ l ∈ constraint.getD [], L l) (limit : RNum) (asks : List Oracle)
    (st : Enumeration) :
    Respects (Keeps A K L N) (satSolutionsLoop limit vars assumptions constraint asks st) := by
  have law := along_keeps A K L N
  induction asks generalizing st with
  | nil =>
    rw [satSolutionsLoop]
    split
    · exact keeps_satSolutionsRound hcov hvars hcon _ (fun _ => law.pure _) st
    · exact law.pure _
  | cons ask asks ih =>
    rw [satSolutionsLoop]
    split
    · exact keeps_satSolutionsRound hcov hvars hcon ask ih st
    · exact law.pure _

end Enumeration

theorem keeps_satSolutions (hcov : Covers A L) (hLK : ∀ l, L l → K l ∧ K (-l)) {vars : RValue}
    (hdefault : vars = .null → ∀ l, K l) (limit assumptions constraint : RValue)
    (asks : List Oracle) :
    Respects (Keeps A K L N) (satSolutions limit vars assumptions constraint asks) := by
  have law := along_keeps A K L N
  refine respects_of_snd fun s hs => ?_
  rw [run_satSolutions]
  cases hh : solutionsHands s limit vars assumptions constraint with
  | error e => exact keeps_refl s hs
  | ok r =>
    obtain ⟨hr, -, hnull⟩ := solutionsHands_ok hh
    rw [hs] at hr
    have hvars : ∀ n, ∀ v ∈ r.vars.getD (seqLen n), K v ∧ K (-v) := by
      intro n v hv
      cases hvs : r.vars with
      | none => exact ⟨hdefault (hnull.mp hvs) v, hdefault (hnull.mp hvs) (-v)⟩
      | some vs =>
        obtain ⟨ws, hfree, hmem⟩ := hr.varsFree vs hvs
        rw [hvs] at hv
        exact hLK v (hcov ws _ hfree v (hmem v hv))
    have hcon : ∀ l ∈ r.constraint.getD [], L l := by
      cases hp : r.constraint with
      | none => simp
      | some p => exact hcov p _ (hr.constraintFree p hp)
    have hloop : Respects (Keeps A K L N) (enumerate r asks) :=
      law.bind (keeps_satSolutionsLoop hcov hvars hcon r.limit asks _) fun _ => law.pure _
    exact hloop.snd s hs

end Keeps

/-! ## The calls -/

/-- The options a call may set. -/
def setsOption : Call → String → Prop
  | .setOption name _, n => name = [some n]
  | .traceProof .., n => n = "binary" ∨ n = "lrat"
  | _, _ => False

/-- An enumeration over all known variables. -/
def defaultProjection : Call → Prop
  | .solutions _ vars _ _ _ => vars = .null
  | _ => False

theorem keeps_exported {A : List AuxRange} {K L : ℤ → Prop} (hcov : Covers A L)
    (hLK : ∀ l, L l → K l ∧ K (-l)) (c : Call) (hdefault : defaultProjection c → ∀ l, K l)
    (hcard : ∀ b ls k e, c ≠ .cardinality b ls k e) :
    Respects (Keeps A K L (setsOption c)) (exported c) := by
  have law := along_keeps A K L (setsOption c)
  cases c with
  | add x => exact law.bind (keeps_satAdd hcov hLK x) fun _ => law.pure _
  | constrain v => exact law.bind (keeps_satConstrain hcov v) fun _ => law.pure _
  | cardinality b ls k e => exact absurd rfl (hcard b ls k e)
  | reserve n => exact law.bind (keeps_satReserve n) fun _ => law.pure _
  | solve as ask => exact law.bind (keeps_satSolve hcov as ask) fun _ => law.pure _
  | simplify ask => exact law.bind (keeps_satSimplify ask) fun _ => law.pure _
  | solutions limit vars as con asks =>
    exact law.bind (keeps_satSolutions hcov hLK hdefault limit as con asks) fun _ => law.pure _
  | getOption name => exact law.bind (keeps_looks (looks_satGetOption name)) fun _ => law.pure _
  | setOption name v =>
    exact law.bind (keeps_satSetOption (fun nm h => h) v) fun _ => law.pure _
  | limit name v => exact law.bind (keeps_satLimit name v) fun _ => law.pure _
  | value vars => exact law.bind (keeps_looks (looks_satValue vars)) fun _ => law.pure _
  | valueAll => exact law.bind (keeps_looks looks_satValueAll) fun _ => law.pure _
  | failed as =>
    exact law.bind (law.bind (keeps_ofExcept _) fun _ => keeps_looks (looks_onHandle (Handle.looks_zusatFailed _)))
      fun _ => law.pure _
  | constraintFailed =>
    exact law.bind (keeps_looks (looks_onHandle Handle.looks_zusatConstraintFailed)) fun _ => law.pure _
  | fixed ls root =>
    exact law.bind (law.bind (keeps_ofExcept _) fun _ =>
      keeps_looks (looks_onHandle (Handle.looks_zusatFixed _ root))) fun _ => law.pure _
  | conclude => exact law.bind (keeps_looks (looks_onHandle Handle.looks_zusatConclude)) fun _ => law.pure _
  | traceProof path format binary canOpen =>
    exact law.bind (keeps_satTraceProof (.inl rfl) (.inr rfl) path format binary canOpen) fun _ =>
      law.pure _
  | closeProof =>
    exact law.bind (keeps_onHandle Handle.evolves_zusatCloseProof) fun _ => law.pure _

end Session
end Zusat
