import Zusat.Foundations.Bisect
import Zusat.Model.Encoders
import Zusat.Model.Handle

/-! # The exported functions of the R layer that work on a solver

A `Session` is what an R user holds as a `zusat_solver`: the C handle and the ranges of auxiliary
variables kept beside it. The functions follow `R/solver.R`, `R/cardinality.R`, `R/controls.R`,
`R/solution.R` and `R/proof.R`, under the names they have there. -/

namespace Zusat
open Foundations Foundations.Prog
set_option autoImplicit false

/-- One row of the matrix of auxiliary ranges. -/
structure AuxRange where
  first : ℕ
  last : ℕ
  first_le_last : first ≤ last
  deriving DecidableEq

structure Session where
  handle : Handle
  aux : List AuxRange

abbrev SessionM := Prog Session RError

namespace Session

def new : Session := ⟨Handle.new, []⟩

def withHandle (s : Session) (h : Handle) : Session := { s with handle := h }

/-- A `.Call`. -/
def onHandle {α : Type} (m : HandleM α) : SessionM α := within Session.handle withHandle m

/-! ## Auxiliary ranges -/

/-- `findInterval(v, starts)` on increasing starts: how many of them are at most `v`. -/
def findInterval (starts : List ℕ) (v : ℕ) : ℕ :=
  bisect (fun i => match starts[i]? with
    | some x => x ≤ v
    | none => false) starts.length 0 starts.length

/-- The comparison of `check_not_aux` with the end of the range `findInterval` points at. -/
def hitsAux (aux : List AuxRange) (v : ℕ) : Bool :=
  let i := findInterval (aux.map AuxRange.first) v
  decide (0 < i) && (match aux[max i 1 - 1]? with
    | some r => decide (v ≤ r.last)
    | none => false)

/-- `check_not_aux`. R's `findInterval` itself refuses unsorted starts. -/
def checkNotAux (aux : List AuxRange) (lits : List ℤ) (arg : String) : Except RError Unit :=
  if aux.isEmpty || lits.isEmpty then .ok ()
  else if !decide ((aux.map AuxRange.first).Pairwise (· ≤ ·)) then
    .error (.stop "'vec' must be sorted non-decreasingly and not contain NAs")
  else match (lits.map Int.natAbs).find? (hitsAux aux) with
    | some v => .error (.auxVariable arg v)
    | none => .ok ()

def refuseAux (lits : List ℤ) (arg : String) : SessionM Unit := do
  let s ← read
  ofExcept (checkNotAux s.aux lits arg)

/-- `add_clauses`. -/
def addClauses (clauses : List (List ℤ)) : SessionM Unit :=
  each (fun cl => onHandle (Handle.zusatAddClause (.int cl))) clauses

/-! ## Clauses, constraints and variables -/

/-- The clauses `sat_add` reads from its argument. -/
def addedClauses : RArg → Except RError (List (List ℤ))
  | .value .null => .error (.stop "`x` is NULL; use integer() for the empty clause")
  | .value v => (asLiterals "x" v).map fun cl => [cl]
  | x => do asClauses "clauses" (← checkFormula "a clause or a list of clauses" x)

def satAdd (x : RArg) : SessionM Unit := do
  let clauses ← ofExcept (addedClauses x)
  refuseAux clauses.flatten "x"
  addClauses clauses

def satConstrain (literals : RValue) : SessionM Unit := do
  require (literals != .null)
    (.stop "`literals` is NULL; use integer() for the empty constraint")
  let lits ← ofExcept (asLiterals "literals" literals)
  refuseAux lits "literals"
  onHandle (Handle.zusatConstrain (.int lits))

/-- The checks `sat_reserve` makes of its number. -/
def reserveCount : RValue → Except RError ℕ
  | .num [x] =>
    if x.isNA then .error (.stop "`n` must be a single number")
    else if !x.isFinite || !x.isWhole then .error (.stop "`n` must be a whole number")
    else if x.lt 0 then .error (.stop "`n` must be non-negative")
    else if x.gt zusatMaxVar then .error (.stop s!"`n` must be at most {zusatMaxVar}")
    else .ok x.asInteger.toNat
  | _ => .error (.stop "`n` must be a single number")

def satReserve (n : RValue) : SessionM Unit := do
  let n ← ofExcept (reserveCount n)
  let s ← read
  ofExcept (match s.aux.find? (fun r => decide (r.first ≤ n)) with
    | some r => .error (.stop (s!"variables {r.first} to {r.last} are already auxiliary variables " ++
        "of a cardinality constraint; reserve before adding cardinality constraints"))
    | none => .ok ())
  let _ ← onHandle (Handle.zusatReserve (.int [(n : ℤ)]))
  pure ()

/-! ## Cardinality constraints -/

/-- `aux_floor`. -/
def auxFloor (nVars : ℕ) (literals : List ℤ) : ℕ := max nVars (topVar literals)

/-- `record_aux(solver, floor + 1L, enc$top)` when `enc$top > floor`. -/
def recordAux (floor top : ℕ) (s : Session) : Session :=
  if h : floor < top then { s with aux := s.aux ++ [⟨floor + 1, top, h⟩] } else s

def addCardinality (literals : List ℤ) (encode : ℕ → Except RError Encoded) : SessionM Unit := do
  refuseAux literals "literals"
  let nVars ← onHandle Handle.zusatNVars
  let enc ← ofExcept (encode (auxFloor nVars literals))
  let clauses ← ofExcept (enc.clauses.mapM fun cl => asLiterals "literals" (.ints cl))
  addClauses clauses
  modify (recordAux (auxFloor nVars literals) enc.top)

/-- The three bounds a cardinality constraint can put on a count. -/
inductive Bound where
  | atMost
  | atLeast
  | exactly
  deriving DecidableEq, Repr

/-- The encoder of each of the three functions. -/
def Bound.encode : Bound → List ℤ → ℕ → Encoding → ℕ → Except RError Encoded
  | .atMost => encodeAtMost
  | .atLeast => encodeAtLeast
  | .exactly => encodeExactly

/-- What `sat_at_most`, `sat_at_least` and `sat_exactly` share. -/
def satCardinality (b : Bound) (literals k encoding : RValue) : SessionM Unit := do
  let lits ← ofExcept (asLiterals "literals" literals)
  let lits ← ofExcept (checkDistinct "literals" lits)
  let enc ← ofExcept (matchEncoding encoding)
  let k ← ofExcept (checkBound k)
  addCardinality lits (b.encode lits k enc)

def satAtMost : RValue → RValue → RValue → SessionM Unit := satCardinality .atMost

def satAtLeast : RValue → RValue → RValue → SessionM Unit := satCardinality .atLeast

def satExactly : RValue → RValue → RValue → SessionM Unit := satCardinality .exactly

/-! ## Solving and reading results -/

def satNVars : SessionM ℕ := onHandle Handle.zusatNVars

/-- `seq_len(n)`. -/
def seqLen (n : ℕ) : List ℤ := (List.range n).map fun i => ((i + 1 : ℕ) : ℤ)

/-- `sat_value`, with its `vars` evaluated. -/
def satValue (vars : RValue) : SessionM (List (Option Bool)) := do
  let vs ← ofExcept (asVariables "vars" vars)
  onHandle (Handle.zusatValue (.int vs))

/-- `sat_value` with its default for `vars`. -/
def satValueAll : SessionM (List (Option Bool)) := do
  let n ← satNVars
  satValue (.ints (seqLen n))

/-- `zusat_solution`: the columns `variable` and `value`, and the attributes. -/
structure Solution where
  variableCol : List ℤ
  valueCol : List (Option Bool)
  status : SolveRes
  nVars : ℕ

/-- The rows of a solution: the whole model, or none. -/
def solutionRows (status : SolveRes) : SessionM (List ℤ × List (Option Bool)) :=
  if status = .sat then do
    let n ← satNVars
    let value ← satValue (.ints (seqLen n))
    pure (seqLen n, value)
  else pure ([], [])

/-- `new_solution`. The clause count is asked for but not modelled. -/
def newSolution (status : SolveRes) : SessionM Solution := do
  let rows ← solutionRows status
  let n ← satNVars
  onHandle (Handle.call Cadical.irredundant)
  pure ⟨rows.1, rows.2, status, n⟩

def satSolve (assumptions : RValue) (ask : Oracle) : SessionM Solution := do
  let lits ← ofExcept (asLiterals "assumptions" assumptions)
  refuseAux lits "assumptions"
  let status ← onHandle (Handle.zusatSolve (.int lits) ask)
  newSolution status

def satSimplify (ask : Oracle) : SessionM SolveRes := onHandle (Handle.zusatSimplify ask)

def satFailed (assumptions : RValue) : SessionM (List Bool) := do
  let lits ← ofExcept (asLiterals "assumptions" assumptions)
  onHandle (Handle.zusatFailed (.int lits))

def satConstraintFailed : SessionM Bool := onHandle Handle.zusatConstraintFailed

def satFixed (literals : RValue) (root : ℤ → ℤ) : SessionM (List (Option Bool)) := do
  let lits ← ofExcept (asLiterals "literals" literals)
  onHandle (Handle.zusatFixed (.int lits) root)

/-! ## Options and limits -/

/-- `sat_option` without a value; `name` is `as.character(name)`. -/
def satGetOption (name : List (Option String)) : SessionM ℤ := do
  let o ← ofExcept (optionNamed name)
  onHandle (Handle.zusatGetOption (.str [some o.name]))
where
  optionNamed : List (Option String) → Except RError OptionSpec
    | [some nm] =>
      match hasOption nm with
      | some o => .ok o
      | none => .error (.stop s!"unknown option '{nm}'")
    | _ => .error (.stop "`name` must be a single option name")

/-- The checks `sat_option` makes of a value. -/
def optionValue (o : OptionSpec) : RValue → Except RError ℤ
  | .num [x] =>
    if x.isNA then .error (.stop "`value` must be a single whole number")
    else if x.isFinite && !x.isWhole then .error (.stop "`value` must be a whole number")
    else if x.lt o.lo || x.gt o.hi then
      .error (.stop s!"option '{o.name}' must be between {o.lo} and {o.hi}")
    else .ok x.asInteger
  | _ => .error (.stop "`value` must be a single whole number")

/-- `sat_option` with a value. -/
def satSetOption (name : List (Option String)) (value : RValue) : SessionM ℤ := do
  let o ← ofExcept (satGetOption.optionNamed name)
  let v ← ofExcept (optionValue o value)
  let s ← read
  require (Cadical.reportingOptions.contains o.name || s.handle.configuring)
    (.stop (s!"option '{o.name}' can only be set on a freshly created solver, before any clause " ++
      "is added or solved"))
  onHandle (Handle.zusatSetOption (.str [some o.name]) (.int [v]))

/-- `sat_limits`. -/
def satLimits : List String :=
  ["conflicts", "decisions", "preprocessing", "localsearch", "ticks", "terminate"]

def checkLimitValue (name : String) : RValue → Except RError ℤ
  | .num [x] =>
    if x.isNA then .error (.stop "`value` must be a single number")
    else if ["preprocessing", "localsearch"].contains name && (!x.isFinite || x.lt 0) then
      .error (.stop s!"`value` for '{name}' must be a non-negative whole number")
    else if !x.isFinite then .ok (-1)
    else if !x.isWhole then .error (.stop "`value` must be a whole number")
    else if x.lt 0 then .ok (-1)
    else if x.gt integerMax then
      .error (.stop s!"`value` must be at most {integerMax}, or Inf for no limit")
    else .ok x.asInteger
  | _ => .error (.stop "`value` must be a single number")

/-- `sat_limit`; `name` is `as.character(name)`. -/
def satLimit (name : List (Option String)) (value : RValue) : SessionM Unit := do
  let nm ← ofExcept (match name with
    | [some nm] =>
      if satLimits.contains nm then .ok nm
      else .error (.stop (s!"unknown limit '{nm}'; must be one of 'conflicts', 'decisions', " ++
        "'preprocessing', 'localsearch', 'ticks', 'terminate'"))
    | _ => .error (.stop "`name` must be a single limit name"))
  let v ← ofExcept (checkLimitValue nm value)
  onHandle (Handle.zusatLimit (.str [some nm]) (.int [v]))

/-! ## Proofs -/

/-- `match.arg(format)` of `sat_trace_proof`: the result says whether LRAT was asked for. -/
def matchFormat : RValue → Except RError Bool
  | .null => .ok false
  | .chr xs =>
    if xs = [some "drat", some "lrat"] then .ok false
    else match xs with
      | [some s] =>
        if s ≠ "" && s.toList.isPrefixOf "drat".toList then .ok false
        else if s ≠ "" && s.toList.isPrefixOf "lrat".toList then .ok true
        else .error (.stop "'arg' should be one of ‘drat’, ‘lrat’")
      | _ :: _ :: _ => .error (.stop "'arg' must be of length 1")
      | _ => .error (.stop "'arg' should be one of ‘drat’, ‘lrat’")
  | _ => .error (.stop "'arg' must be NULL or a character vector")

/-- `sat_trace_proof`; `canOpen` is the outcome of `fopen`. -/
def satTraceProof (path format binary : RValue) (canOpen : Bool) : SessionM Unit := do
  let lrat ← ofExcept (matchFormat format)
  let path ← ofExcept (match path with
    | .chr [some p] => .ok p
    | _ => .error (.stop "`path` must be a single file path"))
  let binary ← ofExcept (match binary with
    | .lgl [some b] => .ok b
    | _ => .error (.stop "`binary` must be TRUE or FALSE"))
  let s ← read
  require s.handle.configuring (.stop ("start tracing before adding clauses or solving: CaDiCaL " ++
    "can only trace a complete proof from a freshly created solver"))
  let previousBinary ← satGetOption [some "binary"]
  let previousLrat ← satGetOption [some "lrat"]
  onError
    (do
      let _ ← satSetOption [some "binary"] (.ints [if binary then 1 else 0])
      let _ ← satSetOption [some "lrat"] (.ints [if lrat then 1 else 0])
      onHandle (Handle.zusatTraceProof (.str [some path]) canOpen))
    (do
      let _ ← satSetOption [some "binary"] (.ints [previousBinary])
      let _ ← satSetOption [some "lrat"] (.ints [previousLrat])
      pure ())

def satCloseProof : SessionM Unit := onHandle Handle.zusatCloseProof

def satConclude : SessionM Unit := onHandle Handle.zusatConclude

end Session
end Zusat
