import Zusat.Model.Cadical

/-! # The C handle of `zusat.c`

`Handle` is `zusat_handle`: the solver, the proof file the handle owns, and the flags that answer
"is this call legal right now?" before CaDiCaL is reached. Files are numbered in the order in which
`fopen` succeeded; `fclosed` lists the `fclose` calls. Each entry point takes its arguments as the
`SEXP`s R passes, checks their type as the source does, and reports through `Rf_error`. -/

namespace Zusat
open Foundations Foundations.Prog
set_option autoImplicit false

/-- An argument as C sees it: an integer vector (`NA_INTEGER` is an element like any other), a
character vector, or another type. -/
inductive SEXP where
  | int (xs : List ℤ)
  | str (xs : List (Option String))
  | other
  deriving DecidableEq, Repr

/-- `zusat_handle`. -/
structure Handle where
  solver : Cadical
  proof : Option ℕ
  proofTraced : Bool
  interrupted : Bool
  configuring : Bool
  lastStatus : ℤ
  concludable : Bool
  constraintPending : Bool
  opened : ℕ
  fclosed : List ℕ

abbrev HandleM := Prog Handle RError

namespace Handle

/-- `zusat_solver_new`. -/
def new : Handle where
  solver := Cadical.init
  proof := none
  proofTraced := false
  interrupted := false
  configuring := true
  lastStatus := 0
  concludable := false
  constraintPending := false
  opened := 0
  fclosed := []

/-- The handle with its solver in another state. -/
def withSolver (h : Handle) (c : Cadical) : Handle := { h with solver := c }

/-- A call into CaDiCaL. -/
def call {α : Type} (m : CadicalM α) : HandleM α := within Handle.solver withSolver m

/-- `invalidate`. -/
def invalidate (h : Handle) : Handle :=
  { h with configuring := false, lastStatus := 0, concludable := false }

/-- `check_lits`. -/
def checkLits : List ℤ → Except RError Unit
  | [] => .ok ()
  | l :: ls =>
    if l = naInteger then .error (.stop "literals must not be NA")
    else if l = 0 then
      .error (.stop "0 is not a valid literal (clauses are terminated automatically)")
    else if l > zusatMaxVar ∨ l < -zusatMaxVar then
      .error (.stop s!"literal {l} exceeds the maximum variable index {zusatMaxVar}")
    else checkLits ls

/-- `TYPEOF (x) != INTSXP`. -/
def asInts (text : String) : SEXP → Except RError (List ℤ)
  | .int xs => .ok xs
  | _ => .error (.stop text)

/-- A single integer that is not `NA`. -/
def asInt (text : String) : SEXP → Except RError ℤ
  | .int [z] => if z = naInteger then .error (.stop text) else .ok z
  | _ => .error (.stop text)

/-! ## Proof tracing -/

/-- `zusat_trace_proof`; `canOpen` is the outcome of `fopen`. -/
def zusatTraceProof (path : SEXP) (canOpen : Bool) : HandleM Unit := do
  let file ← ofExcept (match path with
    | .str [p] => .ok (p.getD "NA")
    | _ => .error (.stop "proof path must be a single string"))
  let h ← read
  require h.proof.isNone (.stop "this solver is already tracing a proof")
  require h.configuring (.stop ("start tracing before adding clauses or solving: CaDiCaL can " ++
    "only trace a complete proof from a freshly created solver"))
  require canOpen (.stop s!"could not open '{file}' for writing")
  modify fun h => { h with proof := some h.opened, proofTraced := false, opened := h.opened + 1 }
  call (Cadical.traceProof h.opened file)
  modify fun h => { h with proofTraced := true }

/-- `zusat_close_proof`. -/
def zusatCloseProof : HandleM Unit := do
  let h ← read
  require h.proof.isSome (.stop "this solver is not tracing a proof")
  doIf h.proofTraced (call Cadical.closeProofTrace)
  modify fun h => { h with fclosed := h.fclosed ++ h.proof.toList, proof := none,
                           proofTraced := false }

/-- `zusat_finalize`, up to the release of the solver. -/
def zusatFinalize : HandleM Unit := do
  let h ← read
  doIf h.proof.isSome do
    doIf h.proofTraced (call Cadical.closeProofTrace)
    modify fun h => { h with fclosed := h.fclosed ++ h.proof.toList, proof := none,
                             proofTraced := false }

/-- `zusat_tracing_proof`. -/
def zusatTracingProof (h : Handle) : Bool := h.proof.isSome

/-- `zusat_conclude`. -/
def zusatConclude : HandleM Unit := do
  let h ← read
  require h.concludable (.stop ("no solve to conclude: call sat_solve() first, and conclude " ++
    "before adding clauses or constraints"))
  call Cadical.conclude

/-! ## Clauses and solving -/

/-- `zusat_add_clause`. -/
def zusatAddClause (lits : SEXP) : HandleM Unit := do
  let p ← ofExcept (asInts "clause must be an integer vector" lits)
  ofExcept (checkLits p)
  modify invalidate
  each (fun l => call (Cadical.add l)) p
  call (Cadical.add 0)

/-- The tail `zusat_solve` and `zusat_simplify` share: run the search under the terminator, then
keep its result unless it was interrupted. -/
def search (what : String) (m : CadicalM Answer) : HandleM SolveRes := do
  modify fun h => { h with interrupted := false }
  call Cadical.setTerminate
  let a ← call m
  modify fun h => { h with interrupted := a.interrupted }
  call Cadical.setTerminate
  modify fun h => { h with constraintPending := false }
  require (!a.interrupted) (.stop s!"{what} interrupted")
  modify fun h => { h with lastStatus := a.res.code, concludable := true }
  pure a.res

/-- `zusat_solve`. -/
def zusatSolve (assumptions : SEXP) (ask : Oracle) : HandleM SolveRes := do
  let ap ← ofExcept (asInts "assumptions must be an integer vector" assumptions)
  ofExcept (checkLits ap)
  modify invalidate
  each (fun l => call (Cadical.assume l)) ap
  search "solve" (Cadical.solve ask)

/-- `zusat_simplify`. -/
def zusatSimplify (ask : Oracle) : HandleM SolveRes := do
  modify invalidate
  search "simplify" (Cadical.simplify ask)

/-- `zusat_constrain`. -/
def zusatConstrain (lits : SEXP) : HandleM Unit := do
  let p ← ofExcept (asInts "constraint must be an integer vector" lits)
  ofExcept (checkLits p)
  modify invalidate
  each (fun l => call (Cadical.constrain l)) p
  call (Cadical.constrain 0)
  modify fun h => { h with constraintPending := true }

/-- `zusat_reserve`. -/
def zusatReserve (n : SEXP) : HandleM ℕ := do
  let want ← ofExcept (asInt "number of variables must be a single integer" n)
  require (0 ≤ want && want ≤ zusatMaxVar)
    (.stop s!"number of variables must be between 0 and {zusatMaxVar}")
  let known ← call Cadical.vars
  doIf (known < want.toNat) do
    modify invalidate
    call (Cadical.declareMoreVariables (want.toNat - known))
  call Cadical.vars

/-! ## Results -/

/-- `zusat_value`; `none` is `NA`. -/
def zusatValue (vars : SEXP) : HandleM (List (Option Bool)) := do
  let vp ← ofExcept (asInts "vars must be an integer vector" vars)
  let h ← read
  require (h.lastStatus == 10) (.stop ("no model available: call sat_solve() first and check " ++
    "that it returned \"sat\""))
  ofExcept (checkLits vp)
  let known ← call Cadical.vars
  collect (fun v : ℤ =>
    if v > known then pure none
    else do
      let x ← call (Cadical.val v)
      pure (if x = 0 then none else some (decide (x > 0)))) vp

/-- `zusat_failed`. -/
def zusatFailed (assumptions : SEXP) : HandleM (List Bool) := do
  let ap ← ofExcept (asInts "assumptions must be an integer vector" assumptions)
  let h ← read
  require (h.lastStatus == 20) (.stop ("no failed assumptions available: sat_failed() needs a " ++
    "solve that returned \"unsat\""))
  ofExcept (checkLits ap)
  collect (fun l => call (Cadical.failed l)) ap

/-- `zusat_constraint_failed`. -/
def zusatConstraintFailed : HandleM Bool := do
  let h ← read
  require (h.lastStatus == 20)
    (.stop "sat_constraint_failed() needs a solve that returned \"unsat\"")
  call Cadical.constraintFailedFn

/-- `zusat_fixed`. -/
def zusatFixed (lits : SEXP) (root : ℤ → ℤ) : HandleM (List (Option Bool)) := do
  let p ← ofExcept (asInts "lits must be an integer vector" lits)
  ofExcept (checkLits p)
  collect (fun l => do
    let f ← call (Cadical.fixed root l)
    pure (if f = 0 then none else some (decide (f > 0)))) p

/-- `zusat_n_vars`. -/
def zusatNVars : HandleM ℕ := call Cadical.vars

/-! ## Options and limits -/

/-- `option_name`: a known option. -/
def optionName : SEXP → Except RError OptionSpec
  | .str [some nm] =>
    match hasOption nm with
    | some o => .ok o
    | none => .error (.stop s!"unknown option '{nm}'")
  | _ => .error (.stop "option name must be a single string")

/-- `zusat_set_option`. -/
def zusatSetOption (name value : SEXP) : HandleM ℤ := do
  let o ← ofExcept (optionName name)
  let v ← ofExcept (asInt "option value must be a single integer" value)
  require (o.lo ≤ v && v ≤ o.hi) (.stop s!"option '{o.name}' must be between {o.lo} and {o.hi}")
  call (Cadical.set o.name v)
  call (Cadical.get o.name)

/-- `zusat_get_option`. -/
def zusatGetOption (name : SEXP) : HandleM ℤ := do
  let o ← ofExcept (optionName name)
  call (Cadical.get o.name)

/-- `zusat_limit`. -/
def zusatLimit (name value : SEXP) : HandleM Unit := do
  let nm ← ofExcept (match name with
    | .str [x] => .ok (x.getD "NA")
    | _ => .error (.stop "limit name must be a single string"))
  let v ← ofExcept (asInt "limit value must be a single integer" value)
  call (Cadical.limit nm v)

end Handle
end Zusat
