import Zusat.Model.LratChecker
import Mathlib.Data.Int.Bitwise
import Mathlib.Data.List.Sort

/-! # The proof checker: `checker.cpp`

With the option `check` CaDiCaL also hands its proof to a checker that needs no antecedents. It keeps the
clauses in a hash table, assigns the units on its trail and watches two literals of every other clause, so
that a derived clause is checked by propagating the negations of its literals.

Clauses are objects of a store, known by their address; a freed clause leaves a hole, and what reads a hole
has no result. The arrays indexed by literal are functions. The random numbers and the reduction of hash values
are those of the LRAT checker, and the counters of `stats` are left out. -/

namespace Zusat
open Foundations Foundations.Prog
set_option autoImplicit false

/-- `CheckerClause`; the size of a garbage clause is zero, its literals stay where they are. -/
structure CheckerClause where
  hash : ℕ
  size : ℕ
  literals : List ℤ
  deriving DecidableEq, Repr

/-- `CheckerWatch`. -/
structure CheckerWatch where
  blit : ℤ
  size : ℕ
  clause : ℕ
  deriving DecidableEq, Repr

/-- `Checker`. -/
structure Checker where
  sizeVars : ℕ
  vals : ℤ → ℤ
  watchers : ℤ → List CheckerWatch
  marks : ℤ → Bool
  inconsistent : Bool
  numClauses : ℕ
  numGarbage : ℕ
  clauses : List (List ℕ)
  garbage : List ℕ
  unsimplified : List ℤ
  simplified : List ℤ
  trail : List ℤ
  nextToPropagate : ℕ
  lastId : ℤ
  store : List (Option CheckerClause)

/-- A computation of the checker; it fails like one of the LRAT checker. -/
abbrev CheckerM := Prog Checker LratFailure

namespace Checker

/-- The constructor. -/
def new : Checker where
  sizeVars := 0
  vals _ := 0
  watchers _ := []
  marks _ := false
  inconsistent := false
  numClauses := 0
  numGarbage := 0
  clauses := []
  garbage := []
  unsimplified := []
  simplified := []
  trail := []
  nextToPropagate := 0
  lastId := 0
  store := []

/-! ## The store -/

def clauseAt (s : Checker) (a : ℕ) : Option CheckerClause := s.store[a]?.join

def allocated (s : Checker) (a : ℕ) : Bool := (s.clauseAt a).isSome

def setClause (s : Checker) (a : ℕ) (c : Option CheckerClause) : Checker := { s with store := s.store.set a c }

def setWatcher (s : Checker) (lit : ℤ) (ws : List CheckerWatch) : Checker :=
  { s with watchers := Function.update s.watchers lit ws }

def pushWatch (s : Checker) (lit : ℤ) (w : CheckerWatch) : Checker :=
  s.setWatcher lit (s.watchers lit ++ [w])

/-! ## Assigning -/

def assign (lit : ℤ) (s : Checker) : Checker :=
  { s with vals := Function.update (Function.update s.vals lit 1) (-lit) (-1), trail := s.trail ++ [lit] }

def assume (lit : ℤ) (s : Checker) : Checker := if 0 < s.vals lit then s else s.assign lit

def unassign (vals : ℤ → ℤ) (lit : ℤ) : ℤ → ℤ := Function.update (Function.update vals lit 0) (-lit) 0

def backtrack (previouslyPropagated : ℕ) (s : Checker) : Checker :=
  { s with
    vals := (s.trail.drop previouslyPropagated).reverse.foldl unassign s.vals
    trail := s.trail.take previouslyPropagated
    nextToPropagate := previouslyPropagated }

/-! ## Propagating -/

/-- The loop of `propagate` over the watchers of the literal `p` that has become false: those left, and those
kept so far. There is no result where a freed clause is read or the vector grows that the loop is over. -/
def visit (p : ℤ) : List CheckerWatch → List CheckerWatch → Checker → Option (Bool × Checker)
  | [], kept, s => some (true, s.setWatcher p kept)
  | w :: ws, kept, s =>
    if 0 < s.vals w.blit then visit p ws (kept ++ [w]) s
    else if w.size = 2 then
      if s.vals w.blit < 0 then some (false, s.setWatcher p (kept ++ w :: ws))
      else visit p ws (kept ++ [w]) (s.assign w.blit)
    else match s.clauseAt w.clause with
      | none => none
      | some c =>
        if c.size = 0 then visit p ws kept s
        else
          let other := Int.xor (Int.xor (c.literals.getD 0 0) (c.literals.getD 1 0)) p
          if 0 < s.vals other then visit p ws (kept ++ [{ w with blit := other }]) s
          else
            let rest := c.literals.drop 2
            match rest.findIdx? fun lit => decide (0 ≤ s.vals lit) with
            | some k =>
              let replacement := rest.getD k 0
              if replacement = p then none
              else visit p ws kept ((s.setClause w.clause
                (some { c with literals := other :: replacement :: rest.set k p })).pushWatch replacement
                  ⟨p, c.size, w.clause⟩)
            | none =>
              let s := s.setClause w.clause (some { c with literals := other :: p :: rest })
              if s.vals other = 0 then visit p ws (kept ++ [w]) (s.assign other)
              else some (false, s.setWatcher p (kept ++ w :: ws))

def propagateLoop : ℕ → Checker → Option (Bool × Checker)
  | 0, _ => none
  | fuel + 1, s =>
    match s.trail[s.nextToPropagate]? with
    | none => some (true, s)
    | some lit =>
      match visit (-lit) (s.watchers (-lit)) [] { s with nextToPropagate := s.nextToPropagate + 1 } with
      | none => none
      | some (false, s) => some (false, s)
      | some (true, s) => propagateLoop fuel s

/-- `propagate`: a literal is propagated for every variable at most. -/
def propagate (s : Checker) : Option (Bool × Checker) := propagateLoop (s.sizeVars + 1) s

/-- `check`. -/
def check (s : Checker) : Option (Bool × Checker) :=
  if s.inconsistent then some (true, s)
  else ((s.simplified.foldl (fun s lit => s.assume (-lit)) s).propagate).map fun r =>
    (!r.1, r.2.backtrack s.nextToPropagate)

/-- What a computation that may have no result does to the state. -/
def lift {α : Type} (f : Checker → Option (α × Checker)) : CheckerM α :=
  ⟨fun s => match f s with
    | none => (.error .undefined, s)
    | some (a, s') => (.ok a, s')⟩

/-! ## Blocked clauses -/

/-- The loop of `check_blocked` over the literals of a clause: how many are marked, or 2 if one is true, and
the last marked one. -/
def scanMarked (vals : ℤ → ℤ) (marks : ℤ → Bool) : List ℤ → ℕ → ℤ → ℕ × ℤ
  | [], count, first => (count, first)
  | lit :: lits, count, first =>
    if 0 < vals lit then (2, first)
    else if marks lit then scanMarked vals marks lits (count + 1) lit
    else scanMarked vals marks lits count first

/-- The literal of a clause that is not blocked because of it. -/
def onlyMarked (s : Checker) (marks : ℤ → Bool) (a : ℕ) : Option ℤ :=
  (s.clauseAt a).bind fun c =>
    let (count, first) := scanMarked s.vals marks (c.literals.take c.size) 0 0
    if count = 1 then some first else none

/-- `check_blocked`. -/
def checkBlocked : CheckerM Bool := do
  let s ← read
  require (s.clauses.flatten.all s.allocated) .undefined
  let neg := LratChecker.negated s.unsimplified
  let marks := LratChecker.setMarks s.marks neg true
  let marks := LratChecker.setMarks marks (s.clauses.flatten.filterMap (s.onlyMarked marks)) false
  modify fun s => { s with marks := LratChecker.setMarks marks neg false }
  pure (neg.any marks)

/-! ## Importing -/

/-- `enlarge_vars`. -/
def enlargeVars (idx : ℕ) (s : Checker) : Checker :=
  { s with sizeVars := LratChecker.doubleSize idx idx (if s.sizeVars = 0 then 2 else 2 * s.sizeVars) }

/-- `import_literal`; for 0 there is no index. -/
def importLiteral (lit : ℤ) : CheckerM Unit := do
  require (lit ≠ 0) .undefined
  modify fun s => if s.sizeVars ≤ lit.natAbs then s.enlargeVars lit.natAbs else s
  modify fun s => { s with simplified := s.simplified ++ [lit], unsimplified := s.unsimplified ++ [lit] }

/-- `import_clause`. -/
def importClause (c : List ℤ) : CheckerM Unit := each importLiteral c

/-- Not `lit_smaller` the other way round. -/
def litLe (a b : ℤ) : Bool := a.natAbs < b.natAbs || (a.natAbs == b.natAbs && decide (a ≤ b))

/-- `sort (simplified.begin (), simplified.end (), lit_smaller ())`. -/
def sortLits (lits : List ℤ) : List ℤ := lits.insertionSort fun a b => litLe a b

/-- The loop of `tautological` over the sorted literals; no result where it returns true. -/
def simplifyLoop (vals : ℤ → ℤ) : ℤ → List ℤ → Option (List ℤ)
  | _, [] => some []
  | prev, lit :: lits =>
    if lit = prev then simplifyLoop vals prev lits
    else if lit = -prev then none
    else if 0 < vals lit then none
    else (simplifyLoop vals lit lits).map (lit :: ·)

/-- `tautological`; when it returns true the literals are dropped by all its callers. -/
def tautological : CheckerM Bool := do
  let s ← read
  match simplifyLoop s.vals 0 (sortLits s.simplified) with
  | none => pure true
  | some lits =>
    modify fun s => { s with simplified := lits }
    pure false

/-! ## The hash table -/

def hashAt (s : Checker) (a : ℕ) : ℕ := ((s.clauseAt a).map CheckerClause.hash).getD 0

/-- `enlarge_clauses`. -/
def enlargeClauses : CheckerM Unit := do
  let s ← read
  require (s.clauses.flatten.all s.allocated) .undefined
  let newSize := if s.clauses.length = 0 then 1 else 2 * s.clauses.length
  modify fun s => { s with
    clauses := Buckets.rehash (fun a => LratChecker.reduceHash (s.hashAt a) newSize) newSize s.clauses.flatten }

/-- `swap (literals[i], literals[j])`. -/
def swap (lits : List ℤ) (i j : ℕ) : List ℤ := (lits.set i (lits.getD j 0)).set j (lits.getD i 0)

/-- The body of the loop that looks for a literal to watch at place `i`. -/
def pickWatch (vals : ℤ → ℤ) (i : ℕ) (lits : List ℤ) : List ℤ :=
  if vals (lits.getD i 0) = 0 then lits
  else match (List.range' (i + 1) (lits.length - (i + 1))).find? fun j => vals (lits.getD j 0) = 0 with
    | some j => swap lits i j
    | none => lits

/-- `new_clause`, for a clause of at least two literals; its address is the end of the store. -/
def newClause (s : Checker) : Checker :=
  let literals := pickWatch s.vals 1 (pickWatch s.vals 0 s.simplified)
  let a := s.store.length
  let c : CheckerClause := ⟨LratChecker.computeHash s.lastId, s.simplified.length, literals⟩
  (({ s with store := s.store ++ [some c], numClauses := s.numClauses + 1 }).pushWatch (literals.getD 0 0)
    ⟨literals.getD 1 0, c.size, a⟩).pushWatch (literals.getD 1 0) ⟨literals.getD 0 0, c.size, a⟩

/-- The chain of the table the last identifier belongs to. -/
def slot (s : Checker) : ℕ := LratChecker.reduceHash (LratChecker.computeHash s.lastId) s.clauses.length

/-- `insert`. -/
def insert : CheckerM Unit := do
  let s ← read
  doIf (s.numClauses = s.clauses.length) enlargeClauses
  require (0 ≤ s.lastId.tmod 4) .undefined
  modify fun s => { s.newClause with clauses := Buckets.push s.clauses s.slot s.store.length }

/-- The clause `find` looks for: the literals are marked. -/
def isClause (s : Checker) (a : ℕ) : Bool :=
  match s.clauseAt a with
  | none => false
  | some c => c.hash == LratChecker.computeHash s.lastId && c.size == s.simplified.length &&
      c.literals.all (LratChecker.setMarks s.marks s.simplified true)

/-- `find`. -/
def find : CheckerM (Option ℕ) := do
  let s ← read
  require (0 ≤ s.lastId.tmod 4) .undefined
  require (!s.clauses.isEmpty) .diverges
  require ((s.clauses.getD s.slot []).all s.allocated) .undefined
  modify fun s => { s with
    marks := LratChecker.setMarks (LratChecker.setMarks s.marks s.simplified true) s.simplified false }
  pure (Buckets.find s.clauses s.slot s.isClause)

/-- Mark a clause as garbage. -/
def discard (a : ℕ) (s : Checker) : Checker :=
  { s with
    store := s.store.modify a (Option.map fun c => { c with size := 0 })
    garbage := a :: s.garbage
    numGarbage := s.numGarbage + 1
    numClauses := s.numClauses - 1 }

/-! ## Collecting garbage -/

/-- `clause_satisfied`. -/
def clauseSatisfied (s : Checker) (a : ℕ) : Bool :=
  match s.clauseAt a with
  | none => false
  | some c => (c.literals.take c.size).any fun lit => decide (0 < s.vals lit)

/-- The first loop of `collect_garbage_clauses`. -/
def discardSatisfied (s : Checker) : Checker :=
  let satisfied := s.clauses.flatten.filter s.clauseSatisfied
  satisfied.foldl (fun s a => s.discard a)
    { s with clauses := s.clauses.map fun chain => chain.filter fun a => !s.clauseSatisfied a }

def isLive (s : Checker) (a : ℕ) : Bool :=
  match s.clauseAt a with
  | none => false
  | some c => c.size != 0

/-- The literals the second loop runs through. -/
def allLiterals (s : Checker) : List ℤ :=
  ((List.range s.sizeVars).drop 1).flatMap fun v : ℕ => [(v : ℤ), -(v : ℤ)]

/-- The second loop: watches of garbage clauses are dropped. -/
def flushWatches (s : Checker) : Checker :=
  let flush := fun ws lit => Function.update ws lit ((ws lit).filter fun w => s.isLive w.clause)
  { s with watchers := s.allLiterals.foldl flush s.watchers }

/-- The third loop: garbage clauses are freed. -/
def freeGarbage (s : Checker) : Checker :=
  { s with
    store := s.garbage.foldl (fun store a => store.set a none) s.store
    numGarbage := s.numGarbage - s.garbage.length
    garbage := [] }

/-- `collect_garbage_clauses`. -/
def collectGarbageClauses : CheckerM Unit := do
  let s ← read
  require (s.clauses.flatten.all s.allocated) .undefined
  modify discardSatisfied
  let s ← read
  require (s.allLiterals.all fun lit => (s.watchers lit).all fun w => s.allocated w.clause) .undefined
  modify flushWatches
  -- no address is freed twice
  require (s.garbage.Nodup && s.garbage.all s.allocated) .undefined
  modify freeGarbage

/-! ## The calls -/

/-- The loop of `add_clause` that looks for a unit, after a look at some literals. -/
def scanUnit (vals : ℤ → ℤ) : List ℤ → LratChecker.UnitScan → LratChecker.UnitScan
  | [], u => u
  | lit :: lits, u =>
    if vals lit < 0 then scanUnit vals lits u
    else match u with
      | .falsified => scanUnit vals lits (.unit lit)
      | _ => .several

/-- `add_clause`. -/
def addClause : CheckerM Unit := do
  let s ← read
  doIf (max s.clauses.length s.sizeVars < 2 * s.numGarbage) collectGarbageClauses
  let s ← read
  match scanUnit s.vals s.simplified .falsified with
  | .falsified => modify fun s => { s with inconsistent := true }
  | .unit lit =>
    modify (assign lit)
    let ok ← lift propagate
    doIf (!ok) (modify fun s => { s with inconsistent := true })
  | .several => insert

def clear (s : Checker) : Checker := { s with simplified := [], unsimplified := [] }

/-- `add_original_clause`. -/
def addOriginalClause (id : ℤ) (c : List ℤ) : CheckerM Unit := do
  let s ← read
  doIf (!s.inconsistent) do
    importClause c
    modify fun s => { s with lastId := id }
    let satisfied ← tautological
    doIf (!satisfied) addClause
    modify clear

/-- The check of `add_derived_clause`: `check () || check_blocked ()`. -/
def derives : CheckerM Bool := do
  let rup ← lift check
  if rup then pure true else checkBlocked

/-- `add_derived_clause`. -/
def addDerivedClause (id : ℤ) (c : List ℤ) : CheckerM Unit := do
  let s ← read
  doIf (!s.inconsistent) do
    importClause c
    modify fun s => { s with lastId := id }
    let satisfied ← tautological
    doIf (!satisfied) do
      let ok ← derives
      let s ← read
      require ok (.fatal ("failed to check derived clause:\n" ++ LratChecker.clauseText s.unsimplified))
      addClause
    modify clear

/-- `delete_clause`. -/
def deleteClause (id : ℤ) (c : List ℤ) : CheckerM Unit := do
  let s ← read
  doIf (!s.inconsistent) do
    modify clear
    importClause c
    modify fun s => { s with lastId := id }
    let satisfied ← tautological
    doIf (!satisfied) do
      let before ← read
      match ← find with
      | none =>
        raise (.fatal ("deleted clause not in proof:\n" ++ LratChecker.clauseText before.unsimplified))
      | some a =>
        modify fun s => { s with clauses := Buckets.unlink s.clauses before.slot before.isClause }
        modify (discard a)
    modify clear

/-- `add_assumption_clause`. -/
def addAssumptionClause (id : ℤ) (c : List ℤ) : CheckerM Unit := do
  addDerivedClause id c
  deleteClause id c

/-- What the solver hands to the checker. -/
inductive Call
  | original (id : ℤ) (c : List ℤ)
  | derived (id : ℤ) (c : List ℤ)
  | delete (id : ℤ) (c : List ℤ)
  | assumption (id : ℤ) (c : List ℤ)
  deriving DecidableEq

def call : Call → CheckerM Unit
  | .original id c => addOriginalClause id c
  | .derived id c => addDerivedClause id c
  | .delete id c => deleteClause id c
  | .assumption id c => addAssumptionClause id c

end Checker
end Zusat
