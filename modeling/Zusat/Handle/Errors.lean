import Zusat.Cadical.Effects
import Zusat.Model.EntryPoints

/-! # What the entry points never say

The refusal of an auxiliary variable is raised in R only. Nothing below an entry point raises it:
neither the checks of `zusat.c` nor CaDiCaL. -/

namespace Zusat
open Foundations Foundations.Prog
set_option autoImplicit false

/-- The program never refuses an auxiliary variable. -/
abbrev Unaware {σ α : Type} (m : Prog σ RError α) : Prop :=
  Moves (fun _ _ => True) (fun e _ _ => e.isAux = false) m

theorem along_unaware {σ : Type} :
    Along (fun _ _ : σ => True) (fun (e : RError) _ _ => e.isAux = false) := along_errors _

theorem unaware_require {σ : Type} {b : Bool} {e : RError} (he : e.isAux = false) :
    Unaware (require b e : Prog σ RError Unit) := along_unaware.require fun _ => he

theorem unaware_stop {σ α : Type} {x : Except RError α} (h : ∀ e, x = .error e → e.isStop = true) :
    Unaware (ofExcept x : Prog σ RError α) :=
  along_unaware.ofExcept fun e he _ => RError.isAux_of_stop (h e he)

theorem unaware_modify {σ : Type} (f : σ → σ) : Unaware (modify f : Prog σ RError Unit) :=
  Moves.modify fun _ => trivial

theorem unaware_within {σ τ α : Type} {get : σ → τ} {put : σ → τ → σ} {m : Prog τ RError α}
    (hm : Unaware m) : Unaware (within get put m) :=
  Moves.within hm (fun _ _ _ => trivial) (fun _ _ _ h => h)

namespace Cadical

theorem unaware_requireValidState (fn : String) : Unaware (requireValidState fn) :=
  along_unaware.bind along_unaware.read fun _ => unaware_require rfl

theorem unaware_requireReadyState (fn : String) : Unaware (requireReadyState fn) :=
  along_unaware.bind (unaware_requireValidState fn) fun _ =>
    along_unaware.bind along_unaware.read fun _ => unaware_require rfl

theorem unaware_requireValidLit (fn : String) (l : ℤ) : Unaware (requireValidLit fn l) :=
  along_unaware.bind (unaware_require rfl) fun _ =>
    along_unaware.bind along_unaware.read fun _ => unaware_require rfl

theorem unaware_internalize (l : ℤ) : Unaware (internalize l) :=
  along_unaware.doIf (along_unaware.bind (unaware_modify _) fun _ =>
    along_unaware.bind along_unaware.read fun _ => along_unaware.doIf (unaware_require rfl))

theorem unaware_add (l : ℤ) : Unaware (add l) := by
  have law := along_unaware (σ := Cadical)
  refine law.bind (unaware_requireValidState _) fun _ => law.bind (law.doIf ?_) fun _ =>
    law.bind (law.doIf (unaware_requireValidLit _ l)) fun _ => law.bind (unaware_modify _) fun _ =>
      law.bind ?_ fun _ => law.bind (unaware_modify _) fun _ => unaware_modify _
  · exact law.bind law.read fun _ => law.bind (law.doIf (unaware_require rfl)) fun _ =>
      law.doIf (unaware_require rfl)
  · refine law.bind law.read fun _ => law.bind (law.doIf (unaware_require rfl)) fun _ =>
      law.bind (unaware_modify _) fun _ => law.bind (unaware_internalize l) fun _ => ?_
    split
    · exact unaware_modify _
    · exact unaware_modify _

theorem unaware_constrain (l : ℤ) : Unaware (constrain l) := by
  have law := along_unaware (σ := Cadical)
  exact law.bind (unaware_requireValidState _) fun _ =>
    law.bind (law.doIf (unaware_requireValidLit _ l)) fun _ => law.bind (unaware_modify _) fun _ =>
      law.bind (law.bind (unaware_modify _) fun _ => law.bind (unaware_internalize l) fun _ =>
        unaware_modify _) fun _ => law.bind (unaware_modify _) fun _ => unaware_modify _

theorem unaware_assume (l : ℤ) : Unaware (assume l) := by
  have law := along_unaware (σ := Cadical)
  exact law.bind (unaware_requireValidState _) fun _ => law.bind (unaware_requireValidLit _ l)
    fun _ => law.bind (unaware_modify _) fun _ => law.bind (unaware_modify _) fun _ =>
      unaware_internalize l

theorem unaware_vars : Unaware vars :=
  along_unaware.bind (along_unaware.bind along_unaware.read fun _ => unaware_require rfl) fun _ =>
    along_unaware.bind along_unaware.read fun _ => along_unaware.pure _

theorem unaware_declareMoreVariables (n : ℕ) : Unaware (declareMoreVariables n) :=
  along_unaware.bind (unaware_requireValidState _) fun _ =>
    along_unaware.bind (unaware_modify _) fun _ => unaware_modify _

theorem unaware_callExternalSolve (pre : Bool) (ask : Oracle) :
    Unaware (callExternalSolve pre ask) := by
  have law := along_unaware (σ := Cadical)
  exact law.bind (unaware_modify _) fun _ => law.bind (unaware_modify _) fun _ =>
    law.bind (law.bind (unaware_modify _) fun _ => law.bind law.read fun _ =>
      law.bind (unaware_modify _) fun _ => law.bind law.read fun _ =>
        law.bind (law.ofExcept fun _ he _ =>
          RError.isAux_of_fromCadical (checkSolveResult_error he).1) fun _ =>
            law.bind (unaware_modify _) fun _ => law.pure _) fun _ =>
        law.bind (unaware_modify _) fun _ => law.pure _

theorem unaware_val (l : ℤ) : Unaware (val l) :=
  along_unaware.bind (unaware_requireValidState _) fun _ =>
    along_unaware.bind (unaware_requireValidLit _ l) fun _ =>
      along_unaware.bind along_unaware.read fun _ =>
        along_unaware.bind (unaware_require rfl) fun _ => along_unaware.pure _

theorem unaware_failed (l : ℤ) : Unaware (failed l) :=
  along_unaware.bind (unaware_requireValidState _) fun _ =>
    along_unaware.bind (unaware_requireValidLit _ l) fun _ =>
      along_unaware.bind along_unaware.read fun _ =>
        along_unaware.bind (unaware_require rfl) fun _ => along_unaware.pure _

theorem unaware_fixed (root : ℤ → ℤ) (l : ℤ) : Unaware (fixed root l) :=
  along_unaware.bind (unaware_requireValidState _) fun _ =>
    along_unaware.bind (unaware_requireValidLit _ l) fun _ => along_unaware.pure _

theorem unaware_set (name : String) (value : ℤ) : Unaware (set name value) :=
  along_unaware.bind (unaware_requireValidState _) fun _ =>
    along_unaware.bind along_unaware.read fun _ =>
      along_unaware.bind (along_unaware.doIf (unaware_require rfl)) fun _ => unaware_modify _

theorem unaware_get (name : String) : Unaware (get name) :=
  along_unaware.bind (along_unaware.bind along_unaware.read fun _ => unaware_require rfl) fun _ =>
    along_unaware.bind along_unaware.read fun _ => along_unaware.pure _

end Cadical

namespace Handle
open Cadical

theorem unaware_call {α : Type} {m : CadicalM α} (hm : Unaware m) : Unaware (call m) :=
  unaware_within hm

theorem asInts_error {text : String} {x : SEXP} {e : RError} (h : asInts text x = .error e) :
    e.isStop = true := by
  cases x <;> cases h <;> rfl

theorem asInt_error {text : String} {x : SEXP} {e : RError} (h : asInt text x = .error e) :
    e.isStop = true := by
  rw [asInt.eq_def] at h
  split at h
  · split_ifs at h
    cases h
    rfl
  · cases h
    rfl

theorem checkLits_error {p : List ℤ} {e : RError} (h : checkLits p = .error e) : e.isStop = true := by
  induction p with
  | nil => cases h
  | cons l p ih =>
    rw [checkLits] at h
    split_ifs at h
    · cases h
      rfl
    · cases h
      rfl
    · cases h
      rfl
    · exact ih h

theorem optionName_error {x : SEXP} {e : RError} (h : optionName x = .error e) :
    e.isStop = true := by
  rw [optionName.eq_def] at h
  split at h
  · split at h
    · cases h
    · cases h
      rfl
  · cases h
    rfl

theorem unaware_asInts (text : String) (x : SEXP) :
    Unaware (ofExcept (asInts text x) : HandleM (List ℤ)) := unaware_stop fun _ => asInts_error

theorem unaware_asInt (text : String) (x : SEXP) : Unaware (ofExcept (asInt text x) : HandleM ℤ) :=
  unaware_stop fun _ => asInt_error

theorem unaware_checkLits (p : List ℤ) : Unaware (ofExcept (checkLits p) : HandleM Unit) :=
  unaware_stop fun _ => checkLits_error

theorem unaware_optionName (x : SEXP) : Unaware (ofExcept (optionName x) : HandleM OptionSpec) :=
  unaware_stop fun _ => optionName_error

theorem unaware_search (what : String) {m : CadicalM Answer} (hm : Unaware m) :
    Unaware (search what m) := by
  have law := along_unaware (σ := Handle)
  exact law.bind (unaware_modify _) fun _ =>
    law.bind (unaware_call (unaware_requireValidState _)) fun _ => law.bind (unaware_call hm) fun _ =>
      law.bind (unaware_modify _) fun _ =>
        law.bind (unaware_call (unaware_requireValidState _)) fun _ =>
          law.bind (unaware_modify _) fun _ => law.bind (unaware_require rfl) fun _ =>
            law.bind (unaware_modify _) fun _ => law.pure _

theorem unaware_zusatSolve (assumptions : SEXP) (ask : Oracle) :
    Unaware (zusatSolve assumptions ask) := by
  have law := along_unaware (σ := Handle)
  refine law.bind (unaware_asInts _ assumptions) fun p => law.bind (unaware_checkLits p) fun _ =>
    law.bind (unaware_modify _) fun _ => law.bind (law.each fun l _ => unaware_call (unaware_assume l))
      fun _ => unaware_search _ ?_
  exact along_unaware.bind (unaware_requireReadyState _) fun _ => unaware_callExternalSolve _ ask

theorem unaware_zusatSimplify (ask : Oracle) : Unaware (zusatSimplify ask) := by
  refine along_unaware.bind (unaware_modify _) fun _ => unaware_search _ ?_
  exact along_unaware.bind (unaware_requireReadyState _) fun _ =>
    along_unaware.bind (unaware_modify _) fun _ => unaware_callExternalSolve _ ask

theorem unaware_zusatReserve (n : SEXP) : Unaware (zusatReserve n) := by
  have law := along_unaware (σ := Handle)
  exact law.bind (unaware_asInt _ n) fun _ => law.bind (unaware_require rfl) fun _ =>
    law.bind (unaware_call unaware_vars) fun _ =>
      law.bind (law.doIf (law.bind (unaware_modify _) fun _ =>
        unaware_call (unaware_declareMoreVariables _))) fun _ => unaware_call unaware_vars

theorem unaware_zusatValue (vars : SEXP) : Unaware (zusatValue vars) := by
  have law := along_unaware (σ := Handle)
  refine law.bind (unaware_asInts _ vars) fun p => law.bind law.read fun _ =>
    law.bind (unaware_require rfl) fun _ => law.bind (unaware_checkLits p) fun _ =>
      law.bind (unaware_call unaware_vars) fun _ => law.collect fun v _ => ?_
  split
  · exact law.pure _
  · exact law.bind (unaware_call (unaware_val v)) fun _ => law.pure _

theorem unaware_zusatFailed (assumptions : SEXP) : Unaware (zusatFailed assumptions) := by
  have law := along_unaware (σ := Handle)
  exact law.bind (unaware_asInts _ assumptions) fun p => law.bind law.read fun _ =>
    law.bind (unaware_require rfl) fun _ => law.bind (unaware_checkLits p) fun _ =>
      law.collect fun l _ => unaware_call (unaware_failed l)

theorem unaware_zusatFixed (lits : SEXP) (root : ℤ → ℤ) : Unaware (zusatFixed lits root) := by
  have law := along_unaware (σ := Handle)
  exact law.bind (unaware_asInts _ lits) fun p => law.bind (unaware_checkLits p) fun _ =>
    law.collect fun l _ => law.bind (unaware_call (unaware_fixed root l)) fun _ => law.pure _

theorem unaware_zusatTraceProof (path : SEXP) (canOpen : Bool) :
    Unaware (zusatTraceProof path canOpen) := by
  have law := along_unaware (σ := Handle)
  refine law.bind (unaware_stop fun e h => ?_) fun _ => law.bind law.read fun _ =>
    law.bind (unaware_require rfl) fun _ => law.bind (unaware_require rfl) fun _ =>
      law.bind (unaware_require rfl) fun _ => law.bind (unaware_modify _) fun _ =>
        law.bind (unaware_call ?_) fun _ => unaware_modify _
  · split at h
    · cases h
    · cases h
      rfl
  · exact along_unaware.bind (unaware_requireValidState _) fun _ =>
      along_unaware.bind along_unaware.read fun _ =>
        along_unaware.bind (unaware_require rfl) fun _ => unaware_modify _

theorem unaware_zusatCloseProof : Unaware zusatCloseProof := by
  have law := along_unaware (σ := Handle)
  refine law.bind law.read fun _ => law.bind (unaware_require rfl) fun _ =>
    law.bind (law.doIf (unaware_call ?_)) fun _ => unaware_modify _
  exact along_unaware.bind (unaware_requireValidState _) fun _ =>
    along_unaware.bind along_unaware.read fun _ => along_unaware.bind (unaware_require rfl) fun _ =>
      along_unaware.bind (unaware_require rfl) fun _ => unaware_modify _

/-- No entry point refuses an auxiliary variable. -/
theorem unaware_entry (e : EntryCall) : Unaware (entry e) := by
  have law := along_unaware (σ := Handle)
  cases e with
  | addClause lits =>
    exact law.bind (law.bind (unaware_asInts _ lits) fun p => law.bind (unaware_checkLits p) fun _ =>
      law.bind (unaware_modify _) fun _ => law.bind (law.each fun l _ => unaware_call (unaware_add l))
        fun _ => unaware_call (unaware_add 0)) fun _ => law.pure _
  | solve assumptions ask =>
    exact law.bind (unaware_zusatSolve assumptions ask) fun _ => law.pure _
  | simplify ask => exact law.bind (unaware_zusatSimplify ask) fun _ => law.pure _
  | constrain lits =>
    exact law.bind (law.bind (unaware_asInts _ lits) fun p => law.bind (unaware_checkLits p) fun _ =>
      law.bind (unaware_modify _) fun _ =>
        law.bind (law.each fun l _ => unaware_call (unaware_constrain l)) fun _ =>
          law.bind (unaware_call (unaware_constrain 0)) fun _ => unaware_modify _) fun _ => law.pure _
  | reserve n => exact law.bind (unaware_zusatReserve n) fun _ => law.pure _
  | limit name value =>
    refine law.bind (law.bind (unaware_stop fun e h => ?_) fun _ =>
      law.bind (unaware_asInt _ value) fun _ => unaware_call ?_) fun _ => law.pure _
    · split at h
      · cases h
      · cases h
        rfl
    · exact along_unaware.bind (unaware_requireValidState _) fun _ => unaware_modify _
  | setOption name value =>
    exact law.bind (law.bind (unaware_optionName name) fun _ => law.bind (unaware_asInt _ value)
      fun _ => law.bind (unaware_require rfl) fun _ => law.bind (unaware_call (unaware_set _ _))
        fun _ => unaware_call (unaware_get _)) fun _ => law.pure _
  | fixed lits root => exact law.bind (unaware_zusatFixed lits root) fun _ => law.pure _
  | value vars => exact law.bind (unaware_zusatValue vars) fun _ => law.pure _
  | failed assumptions => exact law.bind (unaware_zusatFailed assumptions) fun _ => law.pure _
  | constraintFailed =>
    refine law.bind (law.bind law.read fun _ => law.bind (unaware_require rfl) fun _ =>
      unaware_call ?_) fun _ => law.pure _
    exact along_unaware.bind (unaware_requireValidState _) fun _ =>
      along_unaware.bind along_unaware.read fun _ =>
        along_unaware.bind (unaware_require rfl) fun _ => along_unaware.pure _
  | conclude =>
    refine law.bind (law.bind law.read fun _ => law.bind (unaware_require rfl) fun _ =>
      unaware_call ?_) fun _ => law.pure _
    exact along_unaware.bind (unaware_requireValidState _) fun _ =>
      along_unaware.bind along_unaware.read fun _ => unaware_require rfl
  | traceProof path canOpen =>
    exact law.bind (unaware_zusatTraceProof path canOpen) fun _ => law.pure _
  | closeProof => exact law.bind unaware_zusatCloseProof fun _ => law.pure _

end Handle
end Zusat
