import Zusat.Model.Solver

/-! # The cardinality functions in R's own arithmetic

The same encoders as in `Model.Encoders`, with every arithmetic operation the one R performs: `n`, `k`,
`top`, literals with an `L` and loop variables are 32-bit integers, plain numbers and `as.numeric` are
doubles. A program is `none` when an operation on the way gives `NA` or is not exact. -/

namespace Zusat
open Foundations
set_option autoImplicit false

/-- A whole number as R holds it. -/
inductive Whole where
  | int (z : ℤ)
  | dbl (z : ℤ)
  deriving DecidableEq, Repr

namespace Whole

def value : Whole → ℤ
  | .int z => z
  | .dbl z => z

/-- Between two integers the result is an integer, `NA` out of range. With a double it is a double, and
whole numbers are exact up to `2^53`. -/
def arith (f : ℤ → ℤ → ℤ) : Whole → Whole → Option Whole
  | .int a, .int b => if (f a b).natAbs ≤ integerMax then some (.int (f a b)) else none
  | a, b => if (f a.value b.value).natAbs ≤ 2 ^ 53 then some (.dbl (f a.value b.value)) else none

def plus : Whole → Whole → Option Whole := arith (· + ·)

def minus : Whole → Whole → Option Whole := arith (· - ·)

def times : Whole → Whole → Option Whole := arith (· * ·)

end Whole

namespace Machine
open Session (Bound auxFloor)

/-- `length(xs)`, a double for a long vector. -/
def lengthOf {α : Type} (xs : List α) : Whole :=
  if xs.length ≤ integerMax then .int xs.length else .dbl xs.length

/-- Clauses with the highest variable they use. -/
structure Built where
  clauses : List (List ℤ)
  top : Whole

def encodePairwise (literals : List ℤ) (k : ℕ) : Option (List (List ℤ)) :=
  if k ≥ literals.length then some []
  else do
    let size ← (Whole.int k).plus (.int 1)
    return (combn size.value.toNat literals).map fun sub => sub.map (- ·)

/-- `s(i, j)`, which is `top + (i - 1L) * k + j`. -/
def s (top k : ℕ) (i j : Whole) : Option Whole := do
  let before ← i.minus (.int 1)
  let rows ← before.times (.int k)
  let start ← (Whole.int top).plus rows
  start.plus j

/-- `clauses[[length(clauses) + 1L]] <<- c(...)`. -/
def add (clauses : List (List ℤ)) (cl : List ℤ) : Option (List (List ℤ)) := do
  let _ ← (lengthOf clauses).plus (.int 1)
  return clauses ++ [cl]

/-- The clause of one round of the loop over the first row. -/
def sequentialFirst (k top : ℕ) (clauses : List (List ℤ)) (j : ℕ) : Option (List (List ℤ)) := do
  add clauses [-(← s top k (.dbl 1) (.int j)).value]

/-- The two clauses of one round of the inner loop. -/
def sequentialStep (literals : List ℤ) (k top i : ℕ) (clauses : List (List ℤ)) (j : ℕ) :
    Option (List (List ℤ)) := do
  let row ← (Whole.int i).minus (.int 1)
  let low ← (Whole.int j).minus (.int 1)
  let clauses ← add clauses
    [-litAt literals i, -(← s top k row low).value, (← s top k (.int i) (.int j)).value]
  add clauses [-(← s top k row (.int j)).value, (← s top k (.int i) (.int j)).value]

/-- The clauses of one round of the outer loop. -/
def sequentialRow (literals : List ℤ) (k top : ℕ) (clauses : List (List ℤ)) (i : ℕ) :
    Option (List (List ℤ)) := do
  let row ← (Whole.int i).minus (.int 1)
  let clauses ← add clauses [-litAt literals i, (← s top k (.int i) (.dbl 1)).value]
  let clauses ← add clauses [-(← s top k row (.dbl 1)).value, (← s top k (.int i) (.dbl 1)).value]
  let clauses ← (upTo 2 k).foldlM (sequentialStep literals k top i) clauses
  add clauses [-litAt literals i, -(← s top k row (.int k)).value]

def encodeSequential (literals : List ℤ) (k top : ℕ) : Option Built :=
  let n := literals.length
  if k ≥ n then some ⟨[], .int top⟩
  else if k = 0 then some ⟨literals.map fun l => [-l], .int top⟩
  else do
    let rows ← (lengthOf literals).minus (.int 1)
    let newTop ← (Whole.int top).plus (← rows.times (.int k))
    let clauses ← add [] [-litAt literals 1, (← s top k (.dbl 1) (.dbl 1)).value]
    let clauses ← (upTo 2 k).foldlM (sequentialFirst k top) clauses
    let clauses ← (upTo 2 (n - 1)).foldlM (sequentialRow literals k top) clauses
    let clauses ← add clauses [-litAt literals n, -(← s top k rows (.int k)).value]
    return ⟨clauses, newTop⟩

def chooseEncoding (encoding : Encoding) (n k : ℕ) : Option Encoding :=
  if encoding ≠ .auto then some encoding
  else if k = 0 ∨ k ≥ n then some .pairwise
  else do
    let size ← (Whole.int k).plus (.int 1)
    return if n.choose size.value.toNat ≤ 64 then .pairwise else .sequential

/-- `as.numeric(top) + (n - 1) * k`. -/
def needed (literals : List ℤ) (k top : ℕ) : Option Whole := do
  let rows ← (lengthOf literals).minus (.dbl 1)
  (Whole.dbl top).plus (← rows.times (.int k))

def encodeAtMost (literals : List ℤ) (k : ℕ) (encoding : Encoding) (top : ℕ) :
    Option (Except RError Built) :=
  let n := literals.length
  if k ≥ n then some (.ok ⟨[], .int top⟩)
  else if k = 0 then some (.ok ⟨literals.map fun l => [-l], .int top⟩)
  else do
    if (← chooseEncoding encoding n k) = .pairwise then
      return .ok ⟨← encodePairwise literals k, .int top⟩
    let needed ← needed literals k top
    if needed.value > zusatMaxVar then
      return .error (.stop (s!"this encoding needs auxiliary variables up to {needed.value}, " ++
        s!"but variables must be at most {zusatMaxVar}"))
    return .ok (← encodeSequential literals k top)

def encodeAtLeast (literals : List ℤ) (k : ℕ) (encoding : Encoding) (top : ℕ) :
    Option (Except RError Built) :=
  let n := literals.length
  if k = 0 then some (.ok ⟨[], .int top⟩)
  else if k > n then some (.ok ⟨[[]], .int top⟩)
  else do
    let rest ← (lengthOf literals).minus (.int k)
    encodeAtMost (literals.map (- ·)) rest.value.toNat encoding top

def encodeExactly (literals : List ℤ) (k : ℕ) (encoding : Encoding) (top : ℕ) :
    Option (Except RError Built) := do
  match ← encodeAtLeast literals k encoding top with
  | .error err => return .error err
  | .ok lower =>
    match ← encodeAtMost literals k encoding lower.top.value.toNat with
    | .error err => return .error err
    | .ok upper => return .ok ⟨lower.clauses ++ upper.clauses, upper.top⟩

def encode : Bound → List ℤ → ℕ → Encoding → ℕ → Option (Except RError Built)
  | .atMost => encodeAtMost
  | .atLeast => encodeAtLeast
  | .exactly => encodeExactly

/-- What `add_cardinality` computes: the clauses, and the range to record if there is one. -/
def addCardinality (b : Bound) (literals : List ℤ) (k : ℕ) (encoding : Encoding) (nVars : ℕ) :
    Option (Except RError (List (List ℤ) × Option (ℤ × ℤ))) := do
  let floor := auxFloor nVars literals
  match ← encode b literals k encoding floor with
  | .error err => return .error err
  | .ok enc =>
    if enc.top.value > floor then
      let first ← (Whole.int floor).plus (.int 1)
      return .ok (enc.clauses, some (first.value, enc.top.value))
    return .ok (enc.clauses, none)

end Machine
end Zusat
