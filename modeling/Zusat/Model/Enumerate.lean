import Zusat.Model.Solver
import Mathlib.Data.List.Dedup

/-! # Enumeration: `R/enumerate.R`

`sat_solutions` solves, reads the projected assignment, blocks it and solves again. Its loop has no
bound of its own (`limit` may be infinite), so the model takes the searches it is given as a list of
oracles, one a round; a round past the last of them is one the user interrupts. -/

namespace Zusat
open Foundations Foundations.Prog
set_option autoImplicit false

namespace Session

/-- Why the loop ended. -/
inductive Stopped where
  | limit
  | exhausted
  | unknown
  deriving DecidableEq, Repr

/-- The loop variables: the assignments found, the projection last used, status and reason. -/
structure Enumeration where
  found : List (List Bool)
  thisVars : List ℤ
  status : SolveRes
  stopped : Stopped

/-- `unique`, which keeps first occurrences. -/
def unique (vs : List ℤ) : List ℤ := vs.reverse.dedup.reverse

/-- The clause that rules out one assignment: `ifelse(value, -this_vars, this_vars)`. -/
def blockingClause (vs : List ℤ) (value : List Bool) : List ℤ :=
  List.zipWith (fun v b => if b then -v else v) vs value

/-- One round of the loop, continued by `again` once an assignment has been blocked. -/
def satSolutionsRound (vars : Option (List ℤ)) (assumptions : List ℤ)
    (constraint : Option (List ℤ)) (ask : Oracle) (again : Enumeration → SessionM Enumeration)
    (st : Enumeration) : SessionM Enumeration := do
  doIf constraint.isSome (onHandle (Handle.zusatConstrain (.int (constraint.getD []))))
  let sol ← satSolve (.ints assumptions) ask
  if sol.status ≠ .sat then
    pure { st with
      status := if st.found.isEmpty then sol.status else st.status
      stopped := if sol.status = .unsat then .exhausted else .unknown }
  else do
    let n ← satNVars
    let thisVars := vars.getD (seqLen n)
    let value ← satValue (.ints thisVars)
    let st : Enumeration :=
      ⟨st.found ++ [value.map fun b => b.getD false], thisVars, .sat, st.stopped⟩
    if thisVars.isEmpty then pure { st with stopped := .exhausted }
    else do
      addClauses [blockingClause thisVars (value.map fun b => b.getD false)]
      again st

/-- A search that Ctrl-C stops. -/
def interruptedSearch : Oracle := fun _ =>
  ⟨.unknown, true, fun _ => false, fun _ => false, false, 0, .unknown⟩

/-- `while (length(found) < limit)`. -/
def satSolutionsLoop (limit : RNum) (vars : Option (List ℤ)) (assumptions : List ℤ)
    (constraint : Option (List ℤ)) : List Oracle → Enumeration → SessionM Enumeration
  | [], st =>
    if limit.gt st.found.length then
      satSolutionsRound vars assumptions constraint interruptedSearch pure st
    else pure st
  | ask :: asks, st =>
    if limit.gt st.found.length then
      satSolutionsRound vars assumptions constraint ask
        (satSolutionsLoop limit vars assumptions constraint asks) st
    else pure st

/-- `zusat_solutions`: one row per variable per solution, and the attributes. -/
structure Solutions where
  solutionCol : List ℕ
  variableCol : List ℤ
  valueCol : List Bool
  status : SolveRes
  nSolutions : ℕ
  complete : Bool
  stopped : Stopped

/-- `new_solutions`. -/
def newSolutions (found : List (List Bool)) (varsUsed : List ℤ) (status : SolveRes)
    (stopped : Stopped) : Solutions :=
  let n := varsUsed.length
  { solutionCol := (List.range found.length).flatMap fun i => List.replicate n (i + 1)
    variableCol := (List.replicate found.length varsUsed).flatten
    valueCol := found.flatten
    status := status
    nSolutions := found.length
    complete := stopped = .exhausted
    stopped := stopped }

/-- The check of `limit`. -/
def solutionLimit : RValue → Except RError RNum
  | .num [x] =>
    if x.isNA || x.lt 0 then .error (.stop "`limit` must be a single non-negative number")
    else .ok x
  | _ => .error (.stop "`limit` must be a single non-negative number")

/-- A clause given as `constraint`, or a projection given as `vars`, unless it is `NULL`. -/
def optional {α : Type} (f : RValue → SessionM α) : RValue → SessionM (Option α)
  | .null => pure none
  | v => do
    let a ← f v
    pure (some a)

def satSolutions (limit vars assumptions constraint : RValue) (asks : List Oracle) :
    SessionM Solutions := do
  let limit ← ofExcept (solutionLimit limit)
  let s ← read
  require (!s.handle.constraintPending) (.stop ("a constraint set with sat_constrain() covers " ++
    "one solve only, and enumeration solves once per model; pass it as `constraint` to " ++
    "sat_solutions() instead"))
  let assumptions ← ofExcept (asLiterals "assumptions" assumptions)
  refuseAux assumptions "assumptions"
  let constraint ← optional (fun v => do
    let lits ← ofExcept (asLiterals "constraint" v)
    refuseAux lits "constraint"
    pure lits) constraint
  let vars ← optional (fun v => do
    let vs ← ofExcept (asVariables "vars" v)
    refuseAux vs "vars"
    pure (unique vs)) vars
  let st ← satSolutionsLoop limit vars assumptions constraint asks ⟨[], [], .unknown, .limit⟩
  pure (newSolutions st.found (if st.found.isEmpty then [] else st.thisVars) st.status st.stopped)

end Session
end Zusat
