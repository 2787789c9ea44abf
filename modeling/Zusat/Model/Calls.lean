import Zusat.Model.Enumerate
import Zusat.Foundations.Runs

/-! # The exported calls as one machine

One input is one call on a solver, with what the outside contributes: the searches it runs, the
outcome of `fopen`, what is fixed at the root. `sat_solver(formula)` is a new session followed by
`sat_add`. -/

namespace Zusat
open Foundations Foundations.Prog
set_option autoImplicit false

inductive Call where
  | add (x : RArg)
  | constrain (literals : RValue)
  | cardinality (b : Session.Bound) (literals k encoding : RValue)
  | reserve (n : RValue)
  | solve (assumptions : RValue) (ask : Oracle)
  | simplify (ask : Oracle)
  | solutions (limit vars assumptions constraint : RValue) (asks : List Oracle)
  | getOption (name : List (Option String))
  | setOption (name : List (Option String)) (value : RValue)
  | limit (name : List (Option String)) (value : RValue)
  | value (vars : RValue)
  | valueAll
  | failed (assumptions : RValue)
  | constraintFailed
  | fixed (literals : RValue) (root : ℤ → ℤ)
  | conclude
  | traceProof (path format binary : RValue) (canOpen : Bool)
  | closeProof

/-- What a call returns. -/
inductive CallResult where
  | unit
  | status (r : SolveRes)
  | solution (sol : Session.Solution)
  | solutions (sols : Session.Solutions)
  | int (z : ℤ)
  | lgl (xs : List (Option Bool))

namespace Session

/-- The exported function a call names. -/
def exported : Call → SessionM CallResult
  | .add x => do satAdd x; pure .unit
  | .constrain literals => do satConstrain literals; pure .unit
  | .cardinality b literals k encoding => do satCardinality b literals k encoding; pure .unit
  | .reserve n => do satReserve n; pure .unit
  | .solve assumptions ask => do pure (.solution (← satSolve assumptions ask))
  | .simplify ask => do pure (.status (← satSimplify ask))
  | .solutions limit vars assumptions constraint asks => do
    pure (.solutions (← satSolutions limit vars assumptions constraint asks))
  | .getOption name => do pure (.int (← satGetOption name))
  | .setOption name value => do pure (.int (← satSetOption name value))
  | .limit name value => do satLimit name value; pure .unit
  | .value vars => do pure (.lgl (← satValue vars))
  | .valueAll => do pure (.lgl (← satValueAll))
  | .failed assumptions => do pure (.lgl ((← satFailed assumptions).map some))
  | .constraintFailed => do pure (.lgl [some (← satConstraintFailed)])
  | .fixed literals root => do pure (.lgl (← satFixed literals root))
  | .conclude => do satConclude; pure .unit
  | .traceProof path format binary canOpen => do
    satTraceProof path format binary canOpen; pure .unit
  | .closeProof => do satCloseProof; pure .unit

def step (s : Session) (c : Call) : Except RError CallResult × Session := (exported c).run s

/-- The session after a sequence of calls on a fresh solver. -/
def after (cs : List Call) : Session := run step new cs

end Session
end Zusat
