import Zusat.Model.Handle
import Zusat.Foundations.Runs

/-! # The C entry points as one machine

One input is one `.Call` with its arguments and with what the outside contributes to it: the
`Oracle` a search asks, whether `fopen` succeeds, what the search has fixed at the root. -/

namespace Zusat
open Foundations Foundations.Prog
set_option autoImplicit false

/-- A call of one of the entry points that work on a handle. -/
inductive EntryCall where
  | addClause (lits : SEXP)
  | solve (assumptions : SEXP) (ask : Oracle)
  | simplify (ask : Oracle)
  | constrain (lits : SEXP)
  | reserve (n : SEXP)
  | limit (name value : SEXP)
  | setOption (name value : SEXP)
  | fixed (lits : SEXP) (root : ℤ → ℤ)
  | value (vars : SEXP)
  | failed (assumptions : SEXP)
  | constraintFailed
  | conclude
  | traceProof (path : SEXP) (canOpen : Bool)
  | closeProof

/-- What a call returns to R. -/
inductive EntryResult where
  | nil
  | status (r : SolveRes)
  | int (z : ℤ)
  | lgl (xs : List (Option Bool))

namespace Handle

/-- The entry point a call names. -/
def entry : EntryCall → HandleM EntryResult
  | .addClause lits => do zusatAddClause lits; pure .nil
  | .solve assumptions ask => do pure (.status (← zusatSolve assumptions ask))
  | .simplify ask => do pure (.status (← zusatSimplify ask))
  | .constrain lits => do zusatConstrain lits; pure .nil
  | .reserve n => do pure (.int (← zusatReserve n))
  | .limit name value => do zusatLimit name value; pure .nil
  | .setOption name value => do pure (.int (← zusatSetOption name value))
  | .fixed lits root => do pure (.lgl (← zusatFixed lits root))
  | .value vars => do pure (.lgl (← zusatValue vars))
  | .failed assumptions => do pure (.lgl ((← zusatFailed assumptions).map some))
  | .constraintFailed => do pure (.lgl [some (← zusatConstraintFailed)])
  | .conclude => do zusatConclude; pure .nil
  | .traceProof path canOpen => do zusatTraceProof path canOpen; pure .nil
  | .closeProof => do zusatCloseProof; pure .nil

/-- One call: its result or error, and the handle it leaves. -/
def entryStep (h : Handle) (e : EntryCall) : Except RError EntryResult × Handle := (entry e).run h

end Handle

/-- The call ended without an error out of CaDiCaL. -/
def noCadicalError {α : Type} : Except RError α → Bool
  | .ok _ => true
  | .error e => !e.fromCadical

end Zusat
