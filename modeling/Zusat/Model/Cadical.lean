import Zusat.Foundations.Prog
import Zusat.Model.OptionTable
import Zusat.Model.Values

/-! # CaDiCaL's API, as far as the package can see it

The `Solver` of `solver.cpp` over the `External` of `external.cpp`: the API state machine, the
variables known so far, the clauses handed over and the literals of a clause begun but not yet
terminated, assumptions and the one constraint, option values, and the proof tracers. Every
function checks its `REQUIRE`s in the order of the source before it changes anything; a failed one
raises a `contract` error and leaves the state as it was at that point.

The search itself is not modelled: `solve` and `simplify` take an `Oracle` that sees the solver as
it is when `Internal::solve` starts and returns an `Answer`. `searches` lists what each search was
started with. With option `check` the answer is checked as `External` does, and a failed check raises in
the middle of the call: the solver is left in the state SOLVING, from which no call leads back. -/

namespace Zusat
open Foundations Foundations.Prog
set_option autoImplicit false

/-- `enum State` of `cadical.hpp`. -/
inductive ApiState where
  | initializing
  | configuring
  | steady
  | adding
  | solving
  | satisfied
  | unsatisfied
  | deleting
  | inconclusive
  deriving DecidableEq, Repr

namespace ApiState

/-- `READY`. -/
def ready : ApiState → Bool
  | configuring => true
  | steady => true
  | satisfied => true
  | unsatisfied => true
  | inconclusive => true
  | _ => false

/-- `VALID`. -/
def valid (s : ApiState) : Bool := s.ready || s == adding

/-- `VALID | SOLVING`. -/
def validOrSolving (s : ApiState) : Bool := s.valid || s == solving

/-- A search has ended and nothing has left its result since. -/
def ended : ApiState → Bool
  | satisfied => true
  | unsatisfied => true
  | inconclusive => true
  | _ => false

end ApiState

/-- What a search can return: 0, 10 or 20. -/
inductive SolveRes where
  | unknown
  | sat
  | unsat
  deriving DecidableEq, Repr

/-- The integer the C interface returns. -/
def SolveRes.code : SolveRes → ℤ
  | .unknown => 0
  | .sat => 10
  | .unsat => 20

/-- The state `call_external_solve_and_check_results` enters. -/
def SolveRes.state : SolveRes → ApiState
  | .unknown => .inconclusive
  | .sat => .satisfied
  | .unsat => .unsatisfied

/-- The outcome of one search: its result, whether the terminator was told of an interrupt, the
assignment, the failed literals and the constraint's share in a refutation, how many extension
variables `factor` introduced, and what the second solver answers that option `check` asks whether the
failed literals are a core. -/
structure Answer where
  res : SolveRes
  interrupted : Bool
  vals : ℕ → Bool
  failed : ℤ → Bool
  constraintFailed : Bool
  extension : ℕ
  core : SolveRes

/-- One run of `Internal::solve` with the variables known and what was in force when it started. -/
structure Search where
  preprocessOnly : Bool
  maxVar : ℕ
  assumptions : List ℤ
  constraint : List ℤ
  answer : Answer

/-- The proof formats `Internal::trace` chooses from. -/
inductive TracerKind where
  | veripb
  | frat
  | lrat
  | idrup
  | lidrup
  | drat
  deriving DecidableEq, Repr

/-- A connected file tracer. -/
structure Tracer where
  kind : TracerKind
  binary : Bool
  file : ℕ
  closed : Bool
  deriving DecidableEq, Repr

/-- The solver behind the API. -/
structure Cadical where
  state : ApiState
  opts : Options
  limits : List (String × ℤ)
  maxVar : ℕ
  ervars : ℕ → Bool
  moltentab : ℕ → Bool
  clauses : List (List ℤ)
  clause : List ℤ
  original : List ℤ
  addingClause : Bool
  addingConstraint : Bool
  assumptions : List ℤ
  constraint : List ℤ
  vals : ℕ → Bool
  failedLits : ℤ → Bool
  constraintFailed : Bool
  fileTracers : List Tracer
  searches : List Search
  /-- Only a declared variable is ever an extension variable. -/
  ervars_le : ∀ v, ervars v = true → v ≤ maxVar

/-- What a search answers, given the solver it starts on. -/
abbrev Oracle := Cadical → Answer

abbrev CadicalM := Prog Cadical RError

namespace Cadical

/-- `Solver::Solver`. -/
def init : Cadical where
  state := .configuring
  opts := defaultOptions
  limits := []
  maxVar := 0
  ervars := fun _ => false
  moltentab := fun _ => false
  clauses := []
  clause := []
  original := []
  addingClause := false
  addingConstraint := false
  assumptions := []
  constraint := []
  vals := fun _ => false
  failedLits := fun _ => false
  constraintFailed := false
  fileTracers := []
  searches := []
  ervars_le := fun _ h => absurd h Bool.false_ne_true

/-! ## Contracts -/

/-- What `REQUIRE_VALID_STATE` raises. -/
def invalidState (fn : String) : RError := .contract fn "solver in invalid state"

/-- `REQUIRE_VALID_STATE`. -/
def requireValidState (fn : String) : CadicalM Unit := do
  let c ← read
  require c.state.valid (invalidState fn)

/-- `REQUIRE_READY_STATE`. -/
def requireReadyState (fn : String) : CadicalM Unit := do
  requireValidState fn
  let c ← read
  require (c.state != .adding) (.contract fn "clause incomplete (terminating zero not added)")

/-- `REQUIRE_VALID_OR_SOLVING_STATE`. -/
def requireValidOrSolvingState (fn : String) : CadicalM Unit := do
  let c ← read
  require c.state.validOrSolving
    (.contract fn "solver neither in valid nor solving state")

/-- `External::is_valid_input`. -/
def isValidInput (c : Cadical) (elit : ℤ) : Bool :=
  decide (c.maxVar < elit.natAbs) || !c.ervars elit.natAbs

/-- What `REQUIRE_VALID_LIT` and `External::add` say of a variable the solver has introduced. -/
def extensionMessage (lit : ℤ) : String :=
  s!"extension variable '{lit.natAbs}' defined by the solver internally (all user variables " ++
    "have to be declared explicitly if 'factor' is enabled)"

/-- `REQUIRE_VALID_LIT`. -/
def requireValidLit (fn : String) (lit : ℤ) : CadicalM Unit := do
  require (lit != 0 && lit != naInteger) (.contract fn s!"invalid literal '{lit}'")
  let c ← read
  require (c.isValidInput lit) (.contract fn (extensionMessage lit))

/-! ## State changes shared by the API functions -/

/-- `Solver::transition_to_steady_state`: leaving the result of a search resets assumptions and
constraint. A constraint that an error left unterminated is cleared like any other; what `Internal::melt`
does to its literals, which were never frozen, is undefined and left out. -/
def transitionToSteadyState (c : Cadical) : Cadical :=
  { c with
    assumptions := if c.state.ended then [] else c.assumptions
    constraint := if c.state.ended then [] else c.constraint
    state := .steady }

/-- `External::init`: variables up to `newMaxVar` become known. -/
def initVars (newMaxVar : ℕ) (c : Cadical) : Cadical :=
  { c with
    maxVar := max c.maxVar newMaxVar
    ervars_le := fun v h => le_trans (c.ervars_le v h) (le_max_left ..) }

/-- `External::internalize`, on a literal or the terminating zero. -/
def internalize (elit : ℤ) : CadicalM Unit :=
  doIf (elit != 0) do
    modify (initVars elit.natAbs)
    let c ← read
    doIf (c.opts "checkfrozen" != 0)
      (require (!c.moltentab elit.natAbs) (.fatal s!"can not reuse molten literal {elit.natAbs}"))

/-- Enter the state that follows a literal or a terminating zero: `other` says that the other kind
of clause is still being added. -/
def enterAfter (lit : ℤ) (other : Bool) (c : Cadical) : Cadical :=
  { c with state := if lit ≠ 0 then .adding else if other then c.state else .steady }

/-! ## Clauses, constraints and assumptions -/

/-- The literals and zeros handed to `add` are saved for the checks. -/
def savesOriginal (c : Cadical) : Bool :=
  c.opts "check" != 0 && (c.opts "checkwitness" != 0 || c.opts "checkfailed" != 0)

def saveOriginal (elit : ℤ) (c : Cadical) : Cadical :=
  if c.savesOriginal then { c with original := c.original ++ [elit] } else c

/-- `External::add` with `Internal::add_original_lit`: a literal joins the clause begun, zero ends
it. -/
def externalAdd (elit : ℤ) : CadicalM Unit := do
  let c ← read
  doIf (elit != 0) (require (c.isValidInput elit) (.contract "add" (extensionMessage elit)))
  modify (saveOriginal elit)
  internalize elit
  if elit ≠ 0 then modify fun c => { c with clause := c.clause ++ [elit] }
  else modify fun c => { c with clauses := c.clauses ++ [c.clause], clause := [] }

/-- The two checks of `Solver::add` that a user variable has been declared. -/
def requireDeclared (lit : ℤ) : CadicalM Unit := do
  let c ← read
  doIf (c.opts "factor" != 0 && c.opts "factorcheck" == 1)
    (require (lit.natAbs ≤ c.maxVar) (.contract "add"
      (s!"adding literal '{lit}' with undeclared variable '{lit.natAbs}' (checking that user " ++
        "variables are declared explicitly failed as both 'factor' and 'factorcheck' are " ++
        "enabled)")))
  doIf (c.opts "factorcheck" == 2)
    (require (lit.natAbs ≤ c.maxVar) (.contract "add"
      (s!"adding literal '{lit}' with undeclared variable '{lit.natAbs}' (checking that user " ++
        "variables are declared explicitly failed as 'factorcheck == 2' even if 'factor' is " ++
        "disabled)")))

/-- `Solver::add`. -/
def add (lit : ℤ) : CadicalM Unit := do
  requireValidState "add"
  doIf (lit != 0) (requireDeclared lit)
  doIf (lit != 0) (requireValidLit "add" lit)
  modify transitionToSteadyState
  externalAdd lit
  modify fun c => { c with addingClause := lit ≠ 0 }
  modify fun c => enterAfter lit c.addingConstraint c

/-- `External::constrain`: a terminated constraint is replaced by the next one begun. -/
def externalConstrain (elit : ℤ) : CadicalM Unit := do
  modify fun c =>
    { c with constraint := if c.constraint.getLast? = some 0 then [] else c.constraint }
  internalize elit
  modify fun c => { c with constraint := c.constraint ++ [elit] }

/-- `Solver::constrain`. -/
def constrain (lit : ℤ) : CadicalM Unit := do
  requireValidState "constrain"
  doIf (lit != 0) (requireValidLit "constrain" lit)
  modify transitionToSteadyState
  externalConstrain lit
  modify fun c => { c with addingConstraint := lit ≠ 0 }
  modify fun c => enterAfter lit c.addingClause c

/-- `Solver::assume` with `External::assume`, which records the literal before it internalizes
it. -/
def assume (lit : ℤ) : CadicalM Unit := do
  requireValidState "assume"
  requireValidLit "assume" lit
  modify transitionToSteadyState
  modify fun c => { c with assumptions := c.assumptions ++ [lit] }
  internalize lit

/-- `Solver::declare_more_variables`. -/
def declareMoreVariables (number : ℕ) : CadicalM Unit := do
  requireValidState "declare_more_variables"
  modify transitionToSteadyState
  modify fun c => initVars (c.maxVar + number) c

/-! ## The check of a result -/

/-- `External::ival`. -/
def ival (c : Cadical) (elit : ℤ) : ℤ :=
  let v := decide (elit.natAbs ≤ c.maxVar) && c.vals elit.natAbs
  if (if elit < 0 then !v else v) then elit else -elit

/-- The literals of a clause in the message of a failed check. -/
def clauseText (lits : List ℤ) : String := String.join (lits.map fun lit => s!"{lit} ") ++ "0"

/-- `External::check_assignment` from the clause begun so far on: every terminated clause that was saved
has a true literal. -/
def checkAssignment (c : Cadical) : List ℤ → List ℤ → Except RError Unit
  | _, [] => .ok ()
  | begun, lit :: rest =>
    if lit ≠ 0 then c.checkAssignment (begun ++ [lit]) rest
    else if begun.any fun lit => c.ival lit == lit then c.checkAssignment [] rest
    else .error (.fatal ("unsatisfied clause:\n" ++ clauseText begun))

/-- `External::check_assumptions_satisfied`. -/
def checkAssumptionsSatisfied (c : Cadical) : Except RError Unit :=
  match c.assumptions.find? fun lit => c.ival lit != lit with
  | some lit => .error (.fatal s!"assumption {lit} falsified")
  | none => .ok ()

/-- `External::check_constraint_satisfied`. -/
def checkConstraintSatisfied (c : Cadical) : Except RError Unit :=
  if c.constraint.any fun lit => c.ival lit == lit then .ok ()
  else .error (.fatal "constraint not satisfied")

/-- `External::check_satisfiable`. -/
def checkSatisfiable (c : Cadical) : Except RError Unit := do
  (if c.opts "checkwitness" ≠ 0 then c.checkAssignment [] c.original else .ok ())
  (if c.opts "checkassumptions" ≠ 0 ∧ c.assumptions ≠ [] then c.checkAssumptionsSatisfied else .ok ())
  (if c.opts "checkconstraint" ≠ 0 ∧ c.constraint ≠ [] then c.checkConstraintSatisfied else .ok ())

/-- What `External::check_failing` adds to its second solver: the failed assumptions as units, the
constraint if it failed, and all that was saved. -/
def handedToChecker (c : Cadical) : List ℤ :=
  (c.assumptions.filter c.failedLits).flatMap (fun lit => [lit, 0]) ++
    (if c.constraintFailed then c.constraint else []) ++ c.original

/-- `External::check_failing`; `core` is what the second solver answers, which refuses to start in the
middle of a clause. -/
def checkFailing (core : SolveRes) (c : Cadical) : Except RError Unit :=
  if c.handedToChecker.getLast?.any fun lit => lit ≠ 0 then
    .error (.contract "solve" "clause incomplete (terminating zero not added)")
  else if core ≠ .unsat then .error (.fatal "failed assumptions do not form a core")
  else .ok ()

/-- `External::check_unsatisfiable`. -/
def checkUnsatisfiable (core : SolveRes) (c : Cadical) : Except RError Unit :=
  if c.opts "checkfailed" ≠ 0 ∧ (c.assumptions ≠ [] ∨ c.constraint ≠ []) then c.checkFailing core
  else .ok ()

/-- `External::check_solve_result`. -/
def checkSolveResult (a : Answer) (c : Cadical) : Except RError Unit :=
  if c.opts "check" = 0 then .ok ()
  else match a.res with
    | .sat => c.checkSatisfiable
    | .unsat => c.checkUnsatisfiable a.core
    | .unknown => .ok ()

/-! ## Searching -/

/-- `External::update_molten_literals`: nothing is ever frozen through this package. -/
def updateMoltenLiterals (c : Cadical) : Cadical :=
  if c.opts "checkfrozen" ≠ 0 then
    { c with moltentab := fun v => c.moltentab v || (decide (0 < v) && decide (v ≤ c.maxVar)) }
  else c

/-- The number of extension variables a search can have introduced: only `factor` does. -/
def extensionOf (c : Cadical) (a : Answer) : ℕ := if c.opts "factor" ≠ 0 then a.extension else 0

/-- What a search leaves behind: its record, its answer and new extension variables. -/
def recordSearch (preprocessOnly : Bool) (a : Answer) (c : Cadical) : Cadical :=
  { c with
    maxVar := c.maxVar + c.extensionOf a
    ervars := fun v => c.ervars v ||
      (decide (c.maxVar < v) && decide (v ≤ c.maxVar + c.extensionOf a))
    vals := a.vals
    failedLits := a.failed
    constraintFailed := a.constraintFailed
    searches := c.searches ++ [⟨preprocessOnly, c.maxVar, c.assumptions, c.constraint, a⟩]
    ervars_le := by
      intro v hv
      rcases Bool.or_eq_true_iff.mp hv with h | h
      · exact le_trans (c.ervars_le v h) (Nat.le_add_right ..)
      · exact of_decide_eq_true (Bool.and_eq_true_iff.mp h).2 }

/-- `Internal::reset_limits`. -/
def resetLimits (c : Cadical) : Cadical := { c with limits := [] }

/-- `External::solve`; a failed check leaves the limits. -/
def externalSolve (preprocessOnly : Bool) (ask : Oracle) : CadicalM Answer := do
  modify updateMoltenLiterals
  let c ← read
  modify (recordSearch preprocessOnly (ask c))
  let searched ← read
  ofExcept (searched.checkSolveResult (ask c))
  modify resetLimits
  pure (ask c)

/-- `Solver::call_external_solve_and_check_results`. -/
def callExternalSolve (preprocessOnly : Bool) (ask : Oracle) : CadicalM Answer := do
  modify transitionToSteadyState
  modify fun c => { c with state := .solving }
  let a ← externalSolve preprocessOnly ask
  modify fun c => { c with state := a.res.state }
  pure a

/-- `Solver::solve`. -/
def solve (ask : Oracle) : CadicalM Answer := do
  requireReadyState "solve"
  callExternalSolve false ask

/-- `Solver::simplify` with its default of three rounds. -/
def simplify (ask : Oracle) : CadicalM Answer := do
  requireReadyState "simplify"
  modify fun c => { c with limits := c.limits ++ [("preprocessing", 3)] }
  callExternalSolve true ask

/-! ## Results -/

/-- `Solver::val`. -/
def val (lit : ℤ) : CadicalM ℤ := do
  requireValidState "val"
  requireValidLit "val" lit
  let c ← read
  require (c.state == .satisfied) (.contract "val" "can only get value in satisfied state")
  pure (c.ival lit)

/-- `Solver::failed`. -/
def failed (lit : ℤ) : CadicalM Bool := do
  requireValidState "failed"
  requireValidLit "failed" lit
  let c ← read
  require (c.state == .unsatisfied)
    (.contract "failed" "can only get failed assumptions in unsatisfied state")
  pure (c.failedLits lit)

/-- `Solver::constraint_failed`. -/
def constraintFailedFn : CadicalM Bool := do
  requireValidState "constraint_failed"
  let c ← read
  require (c.state == .unsatisfied)
    (.contract "constraint_failed" "can only determine if constraint failed in unsatisfied state")
  pure c.constraintFailed

/-- `Solver::fixed`; `root` is what the search has fixed at the root so far. -/
def fixed (root : ℤ → ℤ) (lit : ℤ) : CadicalM ℤ := do
  requireValidState "fixed"
  requireValidLit "fixed" lit
  pure (root lit)

/-- `Solver::conclude`. -/
def conclude : CadicalM Unit := do
  requireValidState "conclude"
  let c ← read
  require c.state.ended
    (.contract "conclude" "can only conclude in satisfied, unsatisfied or inconclusive state")

/-! ## Introspection, options and limits -/

/-- `Solver::vars`. -/
def vars : CadicalM ℕ := do
  requireValidOrSolvingState "vars"
  let c ← read
  pure c.maxVar

/-- `Solver::irredundant`; the count itself is not modelled. -/
def irredundant : CadicalM Unit := requireValidState "irredundant"

/-- `connect_terminator` and `disconnect_terminator`, behind `ccadical_set_terminate`. -/
def setTerminate : CadicalM Unit := requireValidState "connect_terminator"

/-- The options `Solver::set` accepts in every state. -/
def reportingOptions : List String := ["log", "quiet", "report", "verbose"]

/-- `Options::set`, which forces the value into the option's bounds. -/
def setOpt (name : String) (value : ℤ) (c : Cadical) : Cadical :=
  match hasOption name with
  | none => c
  | some o => { c with opts := Function.update c.opts name (max o.lo (min value o.hi)) }

/-- `Solver::set`. -/
def set (name : String) (value : ℤ) : CadicalM Unit := do
  requireValidState "set"
  let c ← read
  doIf (!reportingOptions.contains name)
    (require (c.state == .configuring) (.contract "set"
      s!"can only set option 'set (\"{name}\", {value})' right after initialization"))
  modify (setOpt name value)

/-- `Solver::get`. -/
def get (name : String) : CadicalM ℤ := do
  requireValidOrSolvingState "get"
  let c ← read
  pure (match hasOption name with
    | none => 0
    | some _ => c.opts name)

/-- `Solver::limit`, which ignores an unknown name. -/
def limit (name : String) (value : ℤ) : CadicalM Unit := do
  requireValidState "limit"
  modify fun c =>
    if name ∈ ["terminate", "conflicts", "decisions", "preprocessing", "localsearch", "ticks"] then
      { c with limits := c.limits ++ [(name, value)] }
    else c

/-! ## Proof tracing -/

/-- The tracer `Internal::trace` connects under the current options. -/
def tracerKind (c : Cadical) : TracerKind :=
  if c.opts "veripb" ≠ 0 then .veripb
  else if c.opts "frat" ≠ 0 then .frat
  else if c.opts "lrat" ≠ 0 then .lrat
  else if c.opts "idrup" ≠ 0 then .idrup
  else if c.opts "lidrup" ≠ 0 then .lidrup
  else .drat

/-- `Solver::trace_proof` on an open file with its name. -/
def traceProof (file : ℕ) (name : String) : CadicalM Unit := do
  requireValidState "trace_proof"
  let c ← read
  require (c.state == .configuring) (.contract "trace_proof"
    s!"can only start proof tracing to '{name}' right after initialization")
  modify fun c => { c with fileTracers := c.fileTracers ++
    [⟨c.tracerKind, c.opts "binary" ≠ 0, file, false⟩] }

/-- `Solver::close_proof_trace`. -/
def closeProofTrace : CadicalM Unit := do
  requireValidState "close_proof_trace"
  let c ← read
  require (!c.fileTracers.isEmpty) (.contract "close_proof_trace" "proof is not traced")
  require (c.fileTracers.getLast?.all (fun t => !t.closed))
    (.contract "close_proof_trace" "proof trace already closed")
  modify fun c => { c with fileTracers := c.fileTracers.map fun t => { t with closed := true } }

end Cadical
end Zusat
