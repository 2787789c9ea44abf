import Zusat.Handle.Effects
import Zusat.Model.EntryPoints

/-! # What one entry call can do

`entry_cases` is the inversion of the machine of `Model.EntryPoints`: a call ends in an error out
of CaDiCaL, or leaves everything the searches depend on alone, or does exactly one of the five things
that change it. The invariants of the handle are derived from it and from nothing else. -/

namespace Zusat
open Foundations Foundations.Prog
set_option autoImplicit false

namespace Cadical

/-! ## Calls that only look -/

/-- The program leaves its state alone however it ends. -/
abbrev Looks {σ ε α : Type} (m : Prog σ ε α) : Prop := Respects (fun s s' => s' = s) m

theorem looks_require {σ ε : Type} (b : Bool) (e : ε) : Looks (require b e : Prog σ ε Unit) :=
  along_still.require fun _ => rfl

theorem looks_requireValidState (fn : String) : Looks (requireValidState fn) :=
  along_still.bind along_still.read fun _ => looks_require _ _

theorem looks_requireValidLit (fn : String) (l : ℤ) : Looks (requireValidLit fn l) :=
  along_still.bind (looks_require _ _) fun _ => along_still.bind along_still.read fun _ =>
    looks_require _ _

theorem looks_vars : Looks vars :=
  along_still.bind (along_still.bind along_still.read fun _ => looks_require _ _) fun _ =>
    along_still.bind along_still.read fun _ => along_still.pure _

theorem looks_val (l : ℤ) : Looks (val l) :=
  along_still.bind (looks_requireValidState _) fun _ =>
    along_still.bind (looks_requireValidLit _ _) fun _ => along_still.bind along_still.read fun _ =>
      along_still.bind (looks_require _ _) fun _ => along_still.pure _

theorem looks_failed (l : ℤ) : Looks (failed l) :=
  along_still.bind (looks_requireValidState _) fun _ =>
    along_still.bind (looks_requireValidLit _ _) fun _ => along_still.bind along_still.read fun _ =>
      along_still.bind (looks_require _ _) fun _ => along_still.pure _

theorem looks_constraintFailedFn : Looks constraintFailedFn :=
  along_still.bind (looks_requireValidState _) fun _ => along_still.bind along_still.read fun _ =>
    along_still.bind (looks_require _ _) fun _ => along_still.pure _

theorem looks_fixed (root : ℤ → ℤ) (l : ℤ) : Looks (fixed root l) :=
  along_still.bind (looks_requireValidState _) fun _ =>
    along_still.bind (looks_requireValidLit _ _) fun _ => along_still.pure _

theorem looks_conclude : Looks conclude :=
  along_still.bind (looks_requireValidState _) fun _ => along_still.bind along_still.read fun _ =>
    looks_require _ _

theorem looks_get (name : String) : Looks (get name) :=
  along_still.bind (along_still.bind along_still.read fun _ => looks_require _ _) fun _ =>
    along_still.bind along_still.read fun _ => along_still.pure _

end Cadical

namespace Handle
open Cadical

theorem looks_call {α : Type} {m : CadicalM α} (hm : Looks m) : Looks (call m) :=
  Moves.within hm (fun _ _ h => by rw [h, withSolver_self])
    (fun _ _ _ h => by rw [h, withSolver_self])

theorem looks_ofExcept {σ ε α : Type} (x : Except ε α) : Looks (ofExcept x : Prog σ ε α) :=
  along_still.ofExcept fun _ _ _ => rfl

theorem looks_zusatValue (vars : SEXP) : Looks (zusatValue vars) :=
  along_still.bind (looks_ofExcept _) fun _ => along_still.bind along_still.read fun _ =>
    along_still.bind (looks_require _ _) fun _ => along_still.bind (looks_ofExcept _) fun _ =>
      along_still.bind (looks_call looks_vars) fun known => along_still.collect fun v _ => by
        split
        · exact along_still.pure _
        · exact along_still.bind (looks_call (looks_val v)) fun _ => along_still.pure _

theorem looks_zusatFailed (assumptions : SEXP) : Looks (zusatFailed assumptions) :=
  along_still.bind (looks_ofExcept _) fun _ => along_still.bind along_still.read fun _ =>
    along_still.bind (looks_require _ _) fun _ => along_still.bind (looks_ofExcept _) fun _ =>
      along_still.collect fun l _ => looks_call (looks_failed l)

theorem looks_zusatConstraintFailed : Looks zusatConstraintFailed :=
  along_still.bind along_still.read fun _ => along_still.bind (looks_require _ _) fun _ =>
    looks_call looks_constraintFailedFn

theorem looks_zusatFixed (lits : SEXP) (root : ℤ → ℤ) : Looks (zusatFixed lits root) :=
  along_still.bind (looks_ofExcept _) fun _ => along_still.bind (looks_ofExcept _) fun _ =>
    along_still.collect fun l _ => along_still.bind (looks_call (looks_fixed root l)) fun _ =>
      along_still.pure _

theorem looks_zusatConclude : Looks zusatConclude :=
  along_still.bind along_still.read fun _ => along_still.bind (looks_require _ _) fun _ =>
    looks_call looks_conclude

/-! ## Calls that touch options, limits or the proof only -/

/-- The solver without its option values, limits and tracers. -/
def coreSolver (c : Cadical) : Cadical :=
  { c with opts := defaultOptions, limits := [], fileTracers := [] }

/-- The handle without these and without the proof file. -/
def core (h : Handle) : Handle :=
  { h with solver := coreSolver h.solver, proof := none, proofTraced := false, opened := 0,
           fclosed := [] }

/-- The program keeps the core of the handle however it ends. -/
abbrev Quiet {α : Type} (m : HandleM α) : Prop := Respects (fun h h' => core h' = core h) m

theorem Quiet.of_looks {α : Type} {m : HandleM α} (hm : Looks m) : Quiet m :=
  respects_of_snd fun s => congrArg core (hm.snd s)

theorem quiet_call {α : Type} {m : CadicalM α}
    (hm : Respects (fun c c' => coreSolver c' = coreSolver c) m) : Quiet (call m) := by
  have hput : ∀ (h : Handle) (c : Cadical), coreSolver c = coreSolver h.solver →
      core (h.withSolver c) = core h := by
    intro h c hc
    rw [core, core, withSolver_solver, hc]
    rfl
  exact Moves.within hm hput (fun _ => hput)

theorem quiet_set (name : String) (value : ℤ) :
    Respects (fun c c' => coreSolver c' = coreSolver c) (Cadical.set name value) := by
  have law := along_view (ε := RError) coreSolver
  refine law.bind (respects_of_snd fun c => congrArg coreSolver
    ((looks_requireValidState _).snd c)) fun _ => law.bind law.read fun c =>
      law.bind (law.doIf (law.require fun _ => rfl)) fun _ => Moves.modify fun c => ?_
  rw [Cadical.setOpt]
  split <;> rfl

theorem quiet_limit (name : String) (value : ℤ) :
    Respects (fun c c' => coreSolver c' = coreSolver c) (Cadical.limit name value) := by
  have law := along_view (ε := RError) coreSolver
  refine law.bind (respects_of_snd fun c => congrArg coreSolver
    ((looks_requireValidState _).snd c)) fun _ => Moves.modify fun c => ?_
  split <;> rfl

theorem quiet_zusatSetOption (name value : SEXP) : Quiet (zusatSetOption name value) := by
  have law := along_view (ε := RError) core
  exact law.bind (law.ofExcept fun _ _ _ => rfl) fun _ => law.bind (law.ofExcept fun _ _ _ => rfl)
    fun _ => law.bind (law.require fun _ => rfl) fun _ => law.bind (quiet_call (quiet_set _ _))
      fun _ => Quiet.of_looks (looks_call (looks_get _))

theorem quiet_zusatLimit (name value : SEXP) : Quiet (zusatLimit name value) := by
  have law := along_view (ε := RError) core
  exact law.bind (law.ofExcept fun _ _ _ => rfl) fun _ => law.bind (law.ofExcept fun _ _ _ => rfl)
    fun _ => quiet_call (quiet_limit _ _)

theorem quiet_zusatTraceProof (path : SEXP) (canOpen : Bool) :
    Quiet (zusatTraceProof path canOpen) := by
  have law := along_view (ε := RError) core
  have hsolver : ∀ file name, Respects (fun c c' => coreSolver c' = coreSolver c)
      (Cadical.traceProof file name) := fun file name =>
    have law := along_view (ε := RError) coreSolver
    law.bind (respects_of_snd fun c => congrArg coreSolver ((looks_requireValidState _).snd c))
      fun _ => law.bind law.read fun _ => law.bind (law.require fun _ => rfl) fun _ =>
        Moves.modify fun _ => rfl
  exact law.bind (law.ofExcept fun _ _ _ => rfl) fun _ => law.bind law.read fun _ =>
    law.bind (law.require fun _ => rfl) fun _ => law.bind (law.require fun _ => rfl) fun _ =>
      law.bind (law.require fun _ => rfl) fun _ => law.bind (Moves.modify fun _ => rfl) fun _ =>
        law.bind (quiet_call (hsolver _ _)) fun _ => Moves.modify fun _ => rfl

theorem quiet_zusatCloseProof : Quiet zusatCloseProof := by
  have law := along_view (ε := RError) core
  have hsolver : Respects (fun c c' => coreSolver c' = coreSolver c) Cadical.closeProofTrace :=
    have law := along_view (ε := RError) coreSolver
    law.bind (respects_of_snd fun c => congrArg coreSolver ((looks_requireValidState _).snd c))
      fun _ => law.bind law.read fun _ => law.bind (law.require fun _ => rfl) fun _ =>
        law.bind (law.require fun _ => rfl) fun _ => Moves.modify fun _ => rfl
  exact law.bind law.read fun _ => law.bind (law.require fun _ => rfl) fun _ =>
    law.bind (law.doIf (quiet_call hsolver)) fun _ => Moves.modify fun _ => rfl

/-! ## The inversion -/

/-- The literals of an argument that an entry point accepts as a vector of literals. -/
def litsOf : SEXP → Option (List ℤ)
  | .int p => if ∀ l ∈ p, ValidLit l then some p else none
  | _ => none

theorem litsOf_eq_some {x : SEXP} {p : List ℤ} (h : litsOf x = some p) :
    x = .int p ∧ ∀ l ∈ p, ValidLit l := by
  cases x with
  | int q =>
    rw [litsOf] at h
    split_ifs at h with hq
    obtain rfl := Option.some.inj h
    exact ⟨rfl, hq⟩
  | str => cases h
  | other => cases h

/-- The call neither hands over literals it accepts nor simplifies. -/
def idle : EntryCall → Prop
  | .addClause x => litsOf x = none
  | .constrain x => litsOf x = none
  | .solve x _ => litsOf x = none
  | .simplify _ => False
  | _ => True

/-- What an entry call that CaDiCaL did not stop did to the handle. -/
inductive Did (h : Handle) : EntryCall → Handle → Prop
  | nothing {e h'} (hcore : core h' = core h) (hidle : idle e) : Did h e h'
  | added {x p} (hx : litsOf x = some p) :
      Did h (.addClause x) ((invalidate h).withSolver (h.solver.takeClause p))
  | constrained {x p} (hx : litsOf x = some p) :
      Did h (.constrain x) { (invalidate h).withSolver (h.solver.takeConstraint p) with
        constraintPending := true }
  | reserved {n : ℕ} (hn : n ≤ zusatMaxVar) (hmax : h.solver.maxVar < n) :
      Did h (.reserve (.int [(n : ℤ)]))
        ((invalidate h).withSolver (Cadical.initVars n h.solver.transitionToSteadyState))
  | solved {x p ask} (hx : litsOf x = some p) :
      Did h (.solve x ask)
        (finish (invalidate h) (ask (p.foldl Cadical.pushAssumption h.solver).startSearch)
          (Cadical.afterSearch false ask (p.foldl Cadical.pushAssumption h.solver)))
  | simplified {ask} :
      Did h (.simplify ask) (finish (invalidate h) (ask h.solver.limitRounds.startSearch)
        (Cadical.afterSearch true ask h.solver.limitRounds))

theorem ready_iff {s : ApiState} : s.ready = true ↔ s.valid = true ∧ s ≠ .adding := by
  cases s <;> decide

/-- A refused vector of literals stops an entry point before it does anything. -/
theorem run_refused {α : Type} (text : String) {x : SEXP} (hx : litsOf x = none)
    (k : List ℤ → HandleM α) (h : Handle) :
    ∃ t, (ofExcept (asInts text x) >>= fun p => ofExcept (checkLits p) >>= fun _ => k p).run h =
      (.error (.stop t), h) := by
  rcases asInts_cases text x with ⟨p, rfl, hp⟩ | hp
  · rcases checkLits_cases p with ⟨-, hall⟩ | ⟨t, ht⟩
    · rw [litsOf, if_pos hall] at hx
      cases hx
    · exact ⟨t, by
        rw [run_bind, hp, run_ofExcept_ok, andThen_ok, run_bind, ht, run_ofExcept_error,
          andThen_error]⟩
  · exact ⟨text, by rw [run_bind, hp, run_ofExcept_error, andThen_error]⟩

/-- A program that keeps the core does nothing as an entry call. -/
theorem Did.of_quiet {α : Type} {h : Handle} {e : EntryCall} {m : HandleM α}
    {f : α → HandleM EntryResult} (hm : Quiet m) (hf : ∀ a, Quiet (f a)) (he : entry e = m >>= f)
    (hidle : idle e) : Did h e (entryStep h e).2 := by
  refine .nothing ?_ hidle
  rw [entryStep, he]
  exact Respects.snd ((along_view (ε := RError) core).bind hm hf) h

theorem quiet_pure {α : Type} (a : α) : Quiet (pure a : HandleM α) :=
  (along_view (ε := RError) core).pure a

section Entry
variable {h : Handle}

theorem did_addClause (hv : h.solver.state.valid = true) (x : SEXP)
    (hok : noCadicalError (entryStep h (.addClause x)).1 = true) :
    Did h (.addClause x) (entryStep h (.addClause x)).2 := by
  cases hx : litsOf x with
  | none =>
    obtain ⟨t, ht⟩ := run_refused "clause must be an integer vector" hx _ h
    have hrun : (entryStep h (.addClause x)).2 = h := by
      rw [entryStep, entry, run_bind, zusatAddClause, ht, andThen_error]
    exact .nothing (by rw [hrun]) hx
  | some p =>
    obtain ⟨rfl, hp⟩ := litsOf_eq_some hx
    rw [entryStep, entry, run_bind] at hok ⊢
    rcases run_zusatAddClause hv hp with ⟨-, hrun⟩ | ⟨q, l, r, e, -, -, -, he, -, hrun⟩
    · rw [hrun]
      exact .added hx
    · rw [hrun] at hok
      exact absurd hok (by simp [noCadicalError, he])

theorem did_constrain (hv : h.solver.state.valid = true) (x : SEXP)
    (hok : noCadicalError (entryStep h (.constrain x)).1 = true) :
    Did h (.constrain x) (entryStep h (.constrain x)).2 := by
  cases hx : litsOf x with
  | none =>
    obtain ⟨t, ht⟩ := run_refused "constraint must be an integer vector" hx _ h
    have hrun : (entryStep h (.constrain x)).2 = h := by
      rw [entryStep, entry, run_bind, zusatConstrain, ht, andThen_error]
    exact .nothing (by rw [hrun]) hx
  | some p =>
    obtain ⟨rfl, hp⟩ := litsOf_eq_some hx
    rw [entryStep, entry, run_bind] at hok ⊢
    rcases run_zusatConstrain hv hp with ⟨-, hrun⟩ | ⟨q, l, r, e, -, -, -, he, -, hrun⟩
    · rw [hrun]
      exact .constrained hx
    · rw [hrun] at hok
      exact absurd hok (by simp [noCadicalError, he])

theorem did_solve (hv : h.solver.state.valid = true) (hadd : h.solver.state ≠ .adding) (x : SEXP)
    (ask : Oracle) (hok : noCadicalError (entryStep h (.solve x ask)).1 = true) :
    Did h (.solve x ask) (entryStep h (.solve x ask)).2 := by
  cases hx : litsOf x with
  | none =>
    obtain ⟨t, ht⟩ := run_refused "assumptions must be an integer vector" hx _ h
    have hrun : (entryStep h (.solve x ask)).2 = h := by
      rw [entryStep, entry, run_bind, zusatSolve, ht, andThen_error]
    exact .nothing (by rw [hrun]) hx
  | some p =>
    obtain ⟨rfl, hp⟩ := litsOf_eq_some hx
    rw [entryStep, entry, run_bind] at hok ⊢
    rcases run_zusatSolve hv hp ask with
      ⟨-, -, -, hrun⟩ | ⟨q, l, r, e, -, -, -, he, -, hrun⟩ | ⟨-, hadd', -⟩ | ⟨e, -, -, hcheck, hrun⟩
    · rw [hrun] at hok ⊢
      have hdid : Did h (.solve (.int p) ask) _ := .solved hx
      rw [report]
      split <;> exact hdid
    · rw [hrun] at hok
      exact absurd hok (by simp [noCadicalError, he])
    · exact absurd hadd' hadd
    · rw [hrun] at hok
      exact absurd hok (by simp [noCadicalError, Cadical.searchCheck_error hcheck])

theorem did_simplify (hv : h.solver.state.valid = true) (hadd : h.solver.state ≠ .adding)
    (ask : Oracle) (hok : noCadicalError (entryStep h (.simplify ask)).1 = true) :
    Did h (.simplify ask) (entryStep h (.simplify ask)).2 := by
  rw [entryStep, entry, run_bind] at hok ⊢
  cases hcheck : Cadical.searchCheck true ask h.solver.limitRounds with
  | ok u =>
    rw [run_zusatSimplify hv hadd hcheck, report]
    have hdid : Did h (.simplify ask) _ := .simplified
    split <;> exact hdid
  | error e =>
    rw [run_zusatSimplify_failed hv hadd hcheck] at hok
    exact absurd hok (by simp [noCadicalError, Cadical.searchCheck_error hcheck])

theorem did_reserve (hv : h.solver.state.valid = true) (n : SEXP) :
    Did h (.reserve n) (entryStep h (.reserve n)).2 := by
  rcases zusatReserve_cases h n with ⟨m, hm, rfl⟩ | ⟨t, ht⟩
  · have hrun : (entryStep h (.reserve (.int [(m : ℤ)]))).2 = reserved h m := by
      rw [entryStep, entry, run_bind, run_zusatReserve hv hm]
      rfl
    rw [hrun, reserved]
    split
    · next hlt => exact .reserved hm hlt
    · exact .nothing rfl trivial
  · have hrun : (entryStep h (.reserve n)).2 = h := by
      rw [entryStep, entry, run_bind, ht, andThen_error]
    exact .nothing (by rw [hrun]) trivial

end Entry

/-- Every entry call from a ready state that CaDiCaL does not stop does one of the things `Did`
lists. -/
theorem entry_cases {h : Handle} (hr : h.solver.state.ready = true) (e : EntryCall)
    (hok : noCadicalError (entryStep h e).1 = true) : Did h e (entryStep h e).2 := by
  obtain ⟨hv, hadd⟩ := ready_iff.mp hr
  cases e with
  | addClause x => exact did_addClause hv x hok
  | constrain x => exact did_constrain hv x hok
  | solve x ask => exact did_solve hv hadd x ask hok
  | simplify ask => exact did_simplify hv hadd ask hok
  | reserve n => exact did_reserve hv n
  | limit name value =>
    exact .of_quiet (quiet_zusatLimit name value) (fun _ => quiet_pure _) rfl trivial
  | setOption name value =>
    exact .of_quiet (quiet_zusatSetOption name value) (fun _ => quiet_pure _) rfl trivial
  | fixed lits root =>
    exact .of_quiet (.of_looks (looks_zusatFixed lits root)) (fun _ => quiet_pure _) rfl trivial
  | value vars =>
    exact .of_quiet (.of_looks (looks_zusatValue vars)) (fun _ => quiet_pure _) rfl trivial
  | failed assumptions =>
    exact .of_quiet (.of_looks (looks_zusatFailed assumptions)) (fun _ => quiet_pure _) rfl trivial
  | constraintFailed =>
    exact .of_quiet (.of_looks looks_zusatConstraintFailed) (fun _ => quiet_pure _) rfl trivial
  | conclude =>
    exact .of_quiet (.of_looks looks_zusatConclude) (fun _ => quiet_pure _) rfl trivial
  | traceProof path canOpen =>
    exact .of_quiet (quiet_zusatTraceProof path canOpen) (fun _ => quiet_pure _) rfl trivial
  | closeProof =>
    exact .of_quiet quiet_zusatCloseProof (fun _ => quiet_pure _) rfl trivial

end Handle
end Zusat
