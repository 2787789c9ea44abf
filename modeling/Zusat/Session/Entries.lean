import Zusat.Handle.Calls
import Zusat.Model.Calls
import Zusat.Session.Rounds

/-! # Exported calls are made of entry calls

Whatever an exported function does to the handle it does through entry points, between checks that
leave it alone. So a relation on handles that every entry point moves along is one every exported call
moves along (`Entrywise.exported`). `sat_trace_proof` alone goes on after an error. -/

namespace Zusat
open Foundations Foundations.Prog
set_option autoImplicit false

namespace Session

/-- `sat_trace_proof` sets two options, starts the trace, and sets the options back when that fails. -/
theorem respects_satTraceProof {R : Session → Session → Prop} (law : Along R (fun _ : RError => R))
    (hset : ∀ nm ∈ ["binary", "lrat"], ∀ v, Respects R (satSetOption [some nm] v))
    (htrace : ∀ path canOpen, Respects R (onHandle (Handle.zusatTraceProof path canOpen)))
    (path format binary : RValue) (canOpen : Bool) :
    Respects R (satTraceProof path format binary canOpen) := by
  have hlooks : ∀ {α : Type} {m : SessionM α}, Cadical.Looks m → Respects R m := fun hm =>
    respects_of_snd fun s => by
      rw [hm.snd s]
      exact law.refl s
  have hbin := hset "binary" (by simp)
  have hlrat := hset "lrat" (by simp)
  exact law.bind (hlooks (Handle.looks_ofExcept _)) fun _ =>
    law.bind (hlooks (Handle.looks_ofExcept _)) fun _ =>
      law.bind (hlooks (Handle.looks_ofExcept _)) fun _ => law.bind law.read fun _ =>
        law.bind (law.require law.refl) fun _ => law.bind (hlooks (looks_satGetOption _)) fun _ =>
          law.bind (hlooks (looks_satGetOption _)) fun _ => respects_onError law
            (law.bind (hbin _) fun _ => law.bind (hlrat _) fun _ => htrace _ _)
            (law.bind (hbin _) fun _ => law.bind (hlrat _) fun _ => law.pure _)

/-- The entry points return along `R` and raise along `E`. -/
structure Entrywise (R : Handle → Handle → Prop) (E : RError → Handle → Handle → Prop) : Prop where
  law : Along R E
  stays : ∀ e h, E e h h
  entry : ∀ e, Moves R E (Handle.entry e)

/-- The same relations between sessions. -/
def Through (R : Handle → Handle → Prop) (s s' : Session) : Prop := R s.handle s'.handle

namespace Entrywise
variable {R : Handle → Handle → Prop} {E : RError → Handle → Handle → Prop} {α : Type}

/-- The program moves the handle along the two relations. -/
abbrev Follows (R : Handle → Handle → Prop) (E : RError → Handle → Handle → Prop)
    (m : SessionM α) : Prop := Moves (Through R) (fun e => Through (E e)) m

theorem follows_onHandle {m : HandleM α} (hm : Moves R E m) : Follows R E (onHandle m) :=
  Moves.within hm (fun _ _ h => h) (fun _ _ _ h => h)

variable (w : Entrywise R E)
include w

theorem through : Along (Through R) (fun e => Through (E e)) :=
  ⟨fun s => w.law.refl s.handle, fun h h' => w.law.trans h h', fun h h' => w.law.absorb h h'⟩

theorem looks {m : SessionM α} (hm : Cadical.Looks m) : Follows R E m := by
  intro s
  rcases hr : m.run s with ⟨r, s'⟩
  obtain rfl := hm.of_run hr
  cases r with
  | ok a => exact w.law.refl _
  | error e => exact w.stays e _

theorem ofExcept (x : Except RError α) : Follows R E (ofExcept x : SessionM α) :=
  w.looks (Handle.looks_ofExcept x)

theorem require (b : Bool) (e : RError) : Follows R E (require b e : SessionM Unit) :=
  w.looks (Cadical.looks_require b e)

theorem refuseAux (lits : List ℤ) (arg : String) : Follows R E (refuseAux lits arg) :=
  w.through.bind w.through.read fun _ => w.ofExcept _

theorem addClause (lits : SEXP) : Follows R E (Session.onHandle (Handle.zusatAddClause lits)) :=
  follows_onHandle (w.entry (.addClause lits)).of_bind_pure

theorem constrain (lits : SEXP) : Follows R E (Session.onHandle (Handle.zusatConstrain lits)) :=
  follows_onHandle (w.entry (.constrain lits)).of_bind_pure

theorem addClauses (cls : List (List ℤ)) : Follows R E (addClauses cls) :=
  w.through.each fun _ _ => w.addClause _

theorem satCardinality (b : Bound) (literals k encoding : RValue) :
    Follows R E (satCardinality b literals k encoding) := by
  have law := w.through
  refine law.bind (w.ofExcept _) fun _ => law.bind (w.ofExcept _) fun _ =>
    law.bind (w.ofExcept _) fun _ => law.bind (w.ofExcept _) fun _ =>
      law.bind (w.refuseAux _ _) fun _ =>
        law.bind (w.looks (looks_onHandle (Handle.looks_call Cadical.looks_vars))) fun _ =>
          law.bind (w.ofExcept _) fun _ => law.bind (w.ofExcept _) fun _ =>
            law.bind (w.addClauses _) fun _ => Moves.modify fun s => ?_
  rw [recordAux]
  split <;> exact w.law.refl _

theorem satSolve (assumptions : RValue) (ask : Oracle) :
    Follows R E (satSolve assumptions ask) := by
  have law := w.through
  exact law.bind (w.ofExcept _) fun _ => law.bind (w.refuseAux _ _) fun _ =>
    law.bind (follows_onHandle (w.entry (.solve _ ask)).of_bind_pure) fun _ =>
      w.looks (looks_newSolution _)

theorem satSolutionsRound (vars : Option (List ℤ)) (assumptions : List ℤ)
    (constraint : Option (List ℤ)) (ask : Oracle) {again : Enumeration → SessionM Enumeration}
    (hagain : ∀ st, Follows R E (again st)) (st : Enumeration) :
    Follows R E (satSolutionsRound vars assumptions constraint ask again st) := by
  have law := w.through
  refine law.bind (law.doIf (w.constrain _)) fun _ => law.bind (w.satSolve _ ask) fun sol => ?_
  split
  · exact law.pure _
  · refine law.bind (w.looks looks_satNVars) fun _ => law.bind (w.looks (looks_satValue _)) fun _ => ?_
    split
    · exact law.pure _
    · exact law.bind (w.addClauses _) fun _ => hagain _

theorem satSolutionsLoop (limit : RNum) (vars : Option (List ℤ)) (assumptions : List ℤ)
    (constraint : Option (List ℤ)) (asks : List Oracle) (st : Enumeration) :
    Follows R E (satSolutionsLoop limit vars assumptions constraint asks st) := by
  have law := w.through
  induction asks generalizing st with
  | nil =>
    rw [Session.satSolutionsLoop]
    split
    · exact w.satSolutionsRound _ _ _ _ (fun _ => law.pure _) st
    · exact law.pure _
  | cons ask asks ih =>
    rw [Session.satSolutionsLoop]
    split
    · exact w.satSolutionsRound _ _ _ ask ih st
    · exact law.pure _

theorem satSolutions (limit vars assumptions constraint : RValue) (asks : List Oracle) :
    Follows R E (satSolutions limit vars assumptions constraint asks) := by
  have law := w.through
  have hoptional : ∀ {β : Type} {f : RValue → SessionM β} (v : RValue),
      (∀ v, Follows R E (f v)) → Follows R E (optional f v) := by
    intro β f v hf
    by_cases hv : v = .null
    · rw [hv]
      exact law.pure _
    · rw [optional_eq hv]
      exact law.bind (hf v) fun _ => law.pure _
  refine law.bind (w.ofExcept _) fun _ => law.bind law.read fun _ => law.bind (w.require _ _) fun _ =>
    law.bind (w.ofExcept _) fun _ => law.bind (w.refuseAux _ _) fun _ =>
      law.bind (hoptional _ fun _ => ?_) fun _ => law.bind (hoptional _ fun _ => ?_) fun _ =>
        law.bind (w.satSolutionsLoop _ _ _ _ _ _) fun _ => law.pure _
  · exact law.bind (w.ofExcept _) fun _ => law.bind (w.refuseAux _ _) fun _ => law.pure _
  · exact law.bind (w.ofExcept _) fun _ => law.bind (w.refuseAux _ _) fun _ => law.pure _

theorem satSetOption (name : List (Option String)) (value : RValue) :
    Follows R E (satSetOption name value) := by
  have law := w.through
  exact law.bind (w.ofExcept _) fun _ => law.bind (w.ofExcept _) fun _ => law.bind law.read fun _ =>
    law.bind (w.require _ _) fun _ => follows_onHandle (w.entry (.setOption _ _)).of_bind_pure

/-- Every exported call but `sat_trace_proof`. -/
theorem exported (c : Call) (htrace : ∀ path format binary canOpen,
      Follows R E (satTraceProof path format binary canOpen)) : Follows R E (exported c) := by
  have law := w.through
  cases c with
  | add x =>
    exact law.bind (law.bind (w.ofExcept _) fun _ => law.bind (w.refuseAux _ _) fun _ =>
      w.addClauses _) fun _ => law.pure _
  | constrain v =>
    exact law.bind (law.bind (w.require _ _) fun _ => law.bind (w.ofExcept _) fun _ =>
      law.bind (w.refuseAux _ _) fun _ => w.constrain _) fun _ => law.pure _
  | cardinality b ls k e => exact law.bind (w.satCardinality b ls k e) fun _ => law.pure _
  | reserve n =>
    exact law.bind (law.bind (w.ofExcept _) fun _ => law.bind law.read fun _ =>
      law.bind (w.ofExcept _) fun _ =>
        law.bind (follows_onHandle (w.entry (.reserve _)).of_bind_pure) fun _ => law.pure _)
      fun _ => law.pure _
  | solve as ask => exact law.bind (w.satSolve as ask) fun _ => law.pure _
  | simplify ask =>
    exact law.bind (follows_onHandle (w.entry (.simplify ask)).of_bind_pure) fun _ => law.pure _
  | solutions limit vars as con asks =>
    exact law.bind (w.satSolutions limit vars as con asks) fun _ => law.pure _
  | getOption name => exact law.bind (w.looks (looks_satGetOption name)) fun _ => law.pure _
  | setOption name v => exact law.bind (w.satSetOption name v) fun _ => law.pure _
  | limit name v =>
    exact law.bind (law.bind (w.ofExcept _) fun _ => law.bind (w.ofExcept _) fun _ =>
      follows_onHandle (w.entry (.limit _ _)).of_bind_pure) fun _ => law.pure _
  | value vars => exact law.bind (w.looks (looks_satValue vars)) fun _ => law.pure _
  | valueAll => exact law.bind (w.looks looks_satValueAll) fun _ => law.pure _
  | failed as =>
    exact law.bind (law.bind (w.ofExcept _) fun _ =>
      w.looks (looks_onHandle (Handle.looks_zusatFailed _))) fun _ => law.pure _
  | constraintFailed =>
    exact law.bind (w.looks (looks_onHandle Handle.looks_zusatConstraintFailed)) fun _ => law.pure _
  | fixed ls root =>
    exact law.bind (law.bind (w.ofExcept _) fun _ =>
      w.looks (looks_onHandle (Handle.looks_zusatFixed _ root))) fun _ => law.pure _
  | conclude =>
    exact law.bind (w.looks (looks_onHandle Handle.looks_zusatConclude)) fun _ => law.pure _
  | traceProof path format binary canOpen =>
    exact law.bind (htrace path format binary canOpen) fun _ => law.pure _
  | closeProof =>
    exact law.bind (follows_onHandle (w.entry .closeProof).of_bind_pure) fun _ => law.pure _

end Entrywise

end Session
end Zusat
