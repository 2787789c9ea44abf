import Zusat.Foundations.Reconstruction
import Mathlib.Algebra.Order.Ring.Int

/-! # The extension stack: `extend.cpp` and `restore.cpp`

Clauses that inprocessing removes are pushed on one vector of integers, each as

    0, witness literals, 0, upper and lower half of the identifier, 0, literals

and the vector is read back from its end to extend a satisfying assignment, from its start to restore
clauses, and in both directions to show the clauses to an iterator. Literals are external ones. A loop that
would run past an end of the vector has no result. -/

namespace Zusat
open Foundations
set_option autoImplicit false

/-- The extension stack of `External` and its two vectors of bits, as the lists of literals marked. -/
structure Extension where
  extension : List ℤ
  witness : List ℤ
  tainted : List ℤ
  deriving DecidableEq, Repr

/-- The options `restore_clauses` reads. -/
structure RestoreOptions where
  restoreall : ℕ
  restoreflush : Bool
  deriving DecidableEq, Repr

namespace Extension

def new : Extension := ⟨[], [], []⟩

/-! ## Pushing -/

/-- `static_cast<int> (id << 32)`, pushed on a vector of `int`. -/
def higherBits (id : ℤ) : ℤ := Int.bmod (id * 2 ^ 32) (2 ^ 32)

/-- `id & (((int64_t) 1 << 32) - 1)`, pushed on a vector of `int`. -/
def lowerBits (id : ℤ) : ℤ := Int.bmod id (2 ^ 32)

/-- `mark`. -/
def mark (map : List ℤ) (lit : ℤ) : List ℤ := if map.contains lit then map else map ++ [lit]

/-- `push_zero_on_extension_stack`. -/
def pushZeroOnExtensionStack (s : Extension) : Extension := { s with extension := s.extension ++ [0] }

/-- `push_id_on_extension_stack`. -/
def pushIdOnExtensionStack (id : ℤ) (s : Extension) : Extension :=
  { s with extension := s.extension ++ [higherBits id, lowerBits id] }

/-- `push_clause_literal_on_extension_stack`. -/
def pushClauseLiteralOnExtensionStack (lit : ℤ) (s : Extension) : Extension :=
  { s with extension := s.extension ++ [lit] }

/-- `push_witness_literal_on_extension_stack`. -/
def pushWitnessLiteralOnExtensionStack (lit : ℤ) (s : Extension) : Extension :=
  { s with extension := s.extension ++ [lit], witness := mark s.witness lit }

/-- `push_clause_on_extension_stack (c)`. -/
def pushClauseOnExtensionStack (c : List ℤ) (id : ℤ) (s : Extension) : Extension :=
  c.foldl (fun s lit => s.pushClauseLiteralOnExtensionStack lit)
    ((s.pushZeroOnExtensionStack.pushIdOnExtensionStack id).pushZeroOnExtensionStack)

/-- What `condition` does with a clause and its witness. -/
def pushWitnessedClause (w c : List ℤ) (id : ℤ) (s : Extension) : Extension :=
  (w.foldl (fun s lit => s.pushWitnessLiteralOnExtensionStack lit)
    s.pushZeroOnExtensionStack).pushClauseOnExtensionStack c id

/-- `push_clause_on_extension_stack (c, pivot)`. -/
def pushClauseWithPivot (c : List ℤ) (id pivot : ℤ) (s : Extension) : Extension :=
  (s.pushZeroOnExtensionStack.pushWitnessLiteralOnExtensionStack pivot).pushClauseOnExtensionStack c id

/-- `push_binary_clause_on_extension_stack`. -/
def pushBinaryClauseOnExtensionStack (id pivot other : ℤ) (s : Extension) : Extension :=
  ((((s.pushZeroOnExtensionStack.pushWitnessLiteralOnExtensionStack pivot).pushZeroOnExtensionStack
    |>.pushIdOnExtensionStack id).pushZeroOnExtensionStack).pushClauseLiteralOnExtensionStack
      pivot).pushClauseLiteralOnExtensionStack other

/-- `while ((lit = *i++))` and its mirror image: the integers before the next zero, and what follows it. -/
def untilZero : List ℤ → Option (List ℤ × List ℤ)
  | [] => none
  | x :: xs => if x = 0 then some ([], xs) else (untilZero xs).map fun r => (x :: r.1, r.2)

/-- `vals[idx] = !vals[idx]` unless `ival (lit) == lit`. -/
def flip (vals : Assignment) (lit : ℤ) : Assignment :=
  if holds vals lit then vals else Function.update vals lit.natAbs (!vals lit.natAbs)

/-- The loop of `extend`, over the vector read from its end. -/
def extendLoop : ℕ → List ℤ → Assignment → Option Assignment
  | _, [], vals => some vals
  | 0, _ :: _, _ => none
  | fuel + 1, back, vals => do
    let (clause, rest) ← untilZero back
    -- the two halves of the identifier and the zero before them
    let (witness, rest) ← untilZero (rest.drop 3)
    extendLoop fuel rest (if clause.any (holds vals) then vals else witness.foldl flip vals)

/-- `extend`, from the values copied from the internal solver. -/
def extend (s : Extension) (vals : Assignment) : Option Assignment :=
  extendLoop s.extension.length s.extension.reverse vals

section Traverse
variable {σ : Type} (visit : σ → List ℤ → List ℤ → ℤ → Bool × σ)

end Traverse

/-- What `internalize` does to the bits of a literal of a new or restored clause. -/
def internalize (s : Extension) (lits : List ℤ) : Extension :=
  { s with tainted := Weakened.taint s.witness s.tainted lits }

section Restore
variable (fixed : List (List ℤ) → ℤ → Bool) (opts : RestoreOptions)

/-- The loop of `restore_clauses`: the tainted literals, the clauses of the internal solver with those
restored so far, and the part of the vector that is kept. `fixed` says which literals are true on the root
level of the internal solver with these clauses. -/
def restoreLoop (witness : List ℤ) :
    ℕ → List ℤ → List ℤ → List (List ℤ) → List ℤ → Option (List ℤ × List (List ℤ))
  | _, [], _, F, kept => some (kept, F)
  | 0, _ :: _, _, _, _ => none
  | fuel + 1, zero :: xs, tainted, F, kept => do
    let (elits, rest) ← untilZero xs
    match rest with
    | high :: low :: zero' :: rest =>
      let tlit := elits.any fun elit => tainted.contains (-elit)
      let clause := rest.takeWhile (· ≠ 0)
      let rest := rest.dropWhile (· ≠ 0)
      let satisfied := opts.restoreflush && clause.any (fixed F)
      if satisfied then restoreLoop witness fuel rest tainted F kept
      else if tlit || opts.restoreall ≠ 0 then
        restoreLoop witness fuel rest (Weakened.taint witness tainted clause) (F ++ [clause]) kept
      else
        restoreLoop witness fuel rest tainted F
          (kept ++ zero :: elits ++ [0, high, low, zero'] ++ clause)
    | _ => none

/-- The witness bits, computed again over the vector read from its end. -/
def witnessLoop : ℕ → List ℤ → List ℤ → Option (List ℤ)
  | _, [], map => some map
  | 0, _ :: _, _ => none
  | fuel + 1, back, map => do
    let (_, rest) ← untilZero back
    let (elits, rest) ← untilZero (rest.drop 3)
    witnessLoop fuel rest (elits.foldl mark map)

/-- `External::restore_clauses`. -/
def restoreClauses (s : Extension) (F : List (List ℤ)) : Option (Extension × List (List ℤ)) := do
  let (kept, F) ← restoreLoop fixed opts s.witness s.extension.length s.extension s.tainted F []
  let map ← witnessLoop kept.length kept.reverse []
  pure (⟨kept, map, []⟩, F)

/-- `Internal::restore_clauses`. -/
def internalRestoreClauses (s : Extension) (F : List (List ℤ)) : Option (Extension × List (List ℤ)) :=
  if opts.restoreall ≤ 1 && s.tainted.isEmpty then some (s, F) else s.restoreClauses fixed opts F

end Restore
end Extension
end Zusat
