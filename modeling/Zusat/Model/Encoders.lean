import Zusat.Foundations.Cnf
import Zusat.Model.Values
import Mathlib.Data.Nat.Choose.Basic

/-! # The cardinality encoders of `R/cardinality.R`

"At most k of these literals are true" as clauses: one clause for every (k+1)-subset, or a sequential
counter with its block of auxiliary variables above `top`. -/

namespace Zusat
open Foundations
set_option autoImplicit false

inductive Encoding where
  | auto
  | pairwise
  | sequential
  deriving DecidableEq, Repr

/-- Clauses with the highest variable they use. -/
structure Encoded where
  clauses : List (List ℤ)
  top : ℕ
  deriving DecidableEq, Repr

/-- `utils::combn` with `simplify = FALSE`: the sublists of length `m` in lexicographic order. -/
def combn {α : Type} : ℕ → List α → List (List α)
  | 0, _ => [[]]
  | _ + 1, [] => []
  | m + 1, x :: xs => (combn m xs).map (x :: ·) ++ combn (m + 1) xs

def encodePairwise (literals : List ℤ) (k : ℕ) : List (List ℤ) :=
  if k ≥ literals.length then []
  else (combn (k + 1) literals).map fun sub => sub.map (- ·)

/-- `a:b` where the source has made sure that `a ≤ b`, and nothing where it has found it is not. -/
def upTo (a b : ℕ) : List ℕ := List.range' a (b + 1 - a)

/-- The counter variable `s(i, j)`: at least `j` of the first `i` literals are true. -/
def counter (top k i j : ℕ) : ℤ := ((top + (i - 1) * k + j : ℕ) : ℤ)

/-- `literals[i]`, counted from 1. -/
def litAt (literals : List ℤ) (i : ℕ) : ℤ := literals.getD (i - 1) 0

/-- The clauses of one round of the outer loop. -/
def sequentialRow (literals : List ℤ) (k top i : ℕ) : List (List ℤ) :=
  [[-litAt literals i, counter top k i 1], [-counter top k (i - 1) 1, counter top k i 1]] ++
  (upTo 2 k).flatMap (fun j =>
    [[-litAt literals i, -counter top k (i - 1) (j - 1), counter top k i j],
     [-counter top k (i - 1) j, counter top k i j]]) ++
  [[-litAt literals i, -counter top k (i - 1) k]]

def encodeSequential (literals : List ℤ) (k top : ℕ) : Encoded :=
  let n := literals.length
  if k ≥ n then ⟨[], top⟩
  else if k = 0 then ⟨literals.map fun l => [-l], top⟩
  else
    ⟨[[-litAt literals 1, counter top k 1 1]] ++
      (upTo 2 k).map (fun j => [-counter top k 1 j]) ++
      (upTo 2 (n - 1)).flatMap (sequentialRow literals k top) ++
      [[-litAt literals n, -counter top k (n - 1) k]],
     top + (n - 1) * k⟩

def chooseEncoding (encoding : Encoding) (n k : ℕ) : Encoding :=
  if encoding ≠ .auto then encoding
  else if k = 0 ∨ k ≥ n then .pairwise
  else if n.choose (k + 1) ≤ 64 then .pairwise
  else .sequential

def encodeAtMost (literals : List ℤ) (k : ℕ) (encoding : Encoding) (top : ℕ) :
    Except RError Encoded :=
  let n := literals.length
  if k ≥ n then .ok ⟨[], top⟩
  else if k = 0 then .ok ⟨literals.map fun l => [-l], top⟩
  else if chooseEncoding encoding n k = .pairwise then .ok ⟨encodePairwise literals k, top⟩
  else if top + (n - 1) * k > zusatMaxVar then
    .error (.stop (s!"this encoding needs auxiliary variables up to {top + (n - 1) * k}, " ++
      s!"but variables must be at most {zusatMaxVar}"))
  else .ok (encodeSequential literals k top)

def encodeAtLeast (literals : List ℤ) (k : ℕ) (encoding : Encoding) (top : ℕ) :
    Except RError Encoded :=
  let n := literals.length
  if k = 0 then .ok ⟨[], top⟩
  else if k > n then .ok ⟨[[]], top⟩
  else encodeAtMost (literals.map (- ·)) (n - k) encoding top

/-- The encoder `sat_exactly` passes on: both halves, the second above the first. -/
def encodeExactly (literals : List ℤ) (k : ℕ) (encoding : Encoding) (top : ℕ) :
    Except RError Encoded := do
  let lower ← encodeAtLeast literals k encoding top
  let upper ← encodeAtMost literals k encoding lower.top
  return ⟨lower.clauses ++ upper.clauses, upper.top⟩

/-! ## Arguments -/

/-- The first repeated variable, as `anyDuplicated` finds it. -/
def firstRepeat (seen : List ℕ) : List ℕ → Option ℕ
  | [] => none
  | v :: vs => if v ∈ seen then some v else firstRepeat (v :: seen) vs

def checkDistinct (arg : String) (literals : List ℤ) : Except RError (List ℤ) :=
  match firstRepeat [] (literals.map Int.natAbs) with
  | some v => .error (.stop s!"`{arg}` must not repeat a variable; variable {v} appears twice")
  | none => .ok literals

def checkBound : RValue → Except RError ℕ
  | .num [x] =>
    if x.isNA then .error (.stop "`k` must not be NA")
    else if !x.isFinite then .error (.stop "`k` must be finite")
    else if !x.isWhole then .error (.stop "`k` must be a whole number")
    else if x.lt 0 then .error (.stop "`k` must not be negative")
    else if x.gt integerMax then .error (.stop s!"`k` must be at most {integerMax}")
    else .ok x.asInteger.toNat
  | _ => .error (.stop "`k` must be a single number")

/-- The choices of the `encoding` argument. -/
def encodingNames : List (String × Encoding) :=
  [("auto", .auto), ("pairwise", .pairwise), ("sequential", .sequential)]

/-- `match.arg(encoding)`: the default vector stands for its first element, a string may be
abbreviated. -/
def matchEncoding : RValue → Except RError Encoding
  | .null => .ok .auto
  | .chr xs =>
    if xs = encodingNames.map (fun c => some c.1) then .ok .auto
    else match xs with
      | [some s] =>
        match encodingNames.filter (fun c => s ≠ "" && s.toList.isPrefixOf c.1.toList) with
        | [c] => .ok c.2
        | _ => .error (.stop "'arg' should be one of ‘auto’, ‘pairwise’, ‘sequential’")
      | _ :: _ :: _ => .error (.stop "'arg' must be of length 1")
      | _ => .error (.stop "'arg' should be one of ‘auto’, ‘pairwise’, ‘sequential’")
  | _ => .error (.stop "'arg' must be NULL or a character vector")

end Zusat
