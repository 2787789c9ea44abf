import Zusat.Foundations.Buckets
import Zusat.Foundations.Prog
import Mathlib.Algebra.Order.Ring.Int
import Mathlib.Logic.Function.Iterate

/-! # The LRAT checker: `lratchecker.cpp`

With the option `check` CaDiCaL hands every clause it adds, derives, deletes, weakens or restores to a
checker, which keeps its own copy of the formula in a hash table and checks the chain of antecedents of every
derived clause. A check that fails stops the solver with a message.

The two arrays of bytes indexed by literal are functions here. The flags `used` of the clauses in a chain are
the list of identifiers met so far; the counters of `stats` are left out. -/

namespace Zusat
open Foundations Foundations.Prog
set_option autoImplicit false

/-- How a call of the checker can fail to return. -/
inductive LratFailure
  /-- `fatal_message_end`, after this message. -/
  | fatal (message : String)
  /-- A null pointer or an index outside an array is used. -/
  | undefined
  /-- The loop of `reduce_hash` does not end on a table of size 0. -/
  | diverges
  deriving DecidableEq, Repr

/-- `LratCheckerClause`. -/
structure LratCheckerClause where
  hash : ℕ
  id : ℤ
  garbage : Bool
  tautological : Bool
  literals : List ℤ
  deriving DecidableEq, Repr

/-- `LratChecker`. -/
structure LratChecker where
  sizeVars : ℕ
  checkedLits : ℤ → Bool
  marks : ℤ → Bool
  clausesToReconstruct : List (ℤ × List ℤ)
  assumptions : List ℤ
  constraint : List ℤ
  concluded : Bool
  numClauses : ℕ
  numFinalized : ℕ
  numGarbage : ℕ
  clauses : List (List LratCheckerClause)
  garbage : List LratCheckerClause
  importedClause : List ℤ
  assumptionClauses : List ℤ
  lastId : ℤ
  currentId : ℤ

/-- A computation of the checker. -/
abbrev LratM := Prog LratChecker LratFailure

namespace LratChecker

/-- The constructor. -/
def new : LratChecker where
  sizeVars := 0
  checkedLits _ := false
  marks _ := false
  clausesToReconstruct := []
  assumptions := []
  constraint := []
  concluded := false
  numClauses := 0
  numFinalized := 0
  numGarbage := 0
  clauses := []
  garbage := []
  importedClause := []
  assumptionClauses := []
  lastId := 0
  currentId := 0

/-- The literals of a message, each followed by a blank, and the final zero. -/
def clauseText (c : List ℤ) : String := String.join (c.map fun l => toString l ++ " ") ++ "0"

/-! ## Hashing -/

/-- `Random::next`. -/
def randomNext (state : ℕ) : ℕ := (state * 6364136223846793005 + 1442695040888963407) % 2 ^ 64

/-- `nonces[n]`: the numbers `Random (42)` generates, made odd. -/
def nonce (n : ℕ) : ℕ :=
  let x := randomNext^[n + 1] 42
  if x % 2 = 1 then x else x + 1

/-- `compute_hash`, where the index `id % num_nonces` is not negative. -/
@[irreducible] def computeHash (id : ℤ) : ℕ := nonce (id.tmod 4).toNat * (id % 2 ^ 64).toNat % 2 ^ 64

/-- The loop of `reduce_hash`, over the values of `shift`. -/
def foldHash (size : ℕ) : List ℕ → ℕ → ℕ
  | [], res => res
  | shift :: shifts, res =>
    if size < 2 ^ shift then foldHash size shifts (res ^^^ (res >>> shift)) else res

/-- `reduce_hash`, for a size other than 0. -/
@[irreducible] def reduceHash (hash size : ℕ) : ℕ := foldHash size [32, 16, 8, 4, 2, 1] hash &&& (size - 1)

/-- The clause `find` looks for. -/
def isClause (id : ℤ) (c : LratCheckerClause) : Bool := c.hash == computeHash id && c.id == id

/-- The chain of the table an identifier belongs to. -/
def slot (s : LratChecker) (id : ℤ) : ℕ := reduceHash (computeHash id) s.clauses.length

/-- `find`. -/
def find (id : ℤ) : LratM (Option LratCheckerClause) := do
  let s ← read
  require (0 ≤ id.tmod 4) .undefined
  require (!s.clauses.isEmpty) .diverges
  pure (Buckets.find s.clauses (s.slot id) (isClause id))

/-- `enlarge_clauses`: twice as many chains. -/
def enlargeClauses (s : LratChecker) : LratChecker :=
  let newSize := if s.clauses.length = 0 then 1 else 2 * s.clauses.length
  { s with clauses := Buckets.rehash (fun c => reduceHash c.hash newSize) newSize s.clauses.flatten }

/-! ## Marks -/

/-- Give each literal of a list the same byte. -/
def setMarks (m : ℤ → Bool) (ls : List ℤ) (b : Bool) : ℤ → Bool :=
  ls.foldl (fun m l => Function.update m l b) m

/-- The loop `new_clause` and `check` start with: assign the negations, and see a tautology when a literal
is assigned itself. -/
def falsify (m : ℤ → Bool) (ls : List ℤ) : (ℤ → Bool) × Bool :=
  ls.foldl (fun st l => (Function.update st.1 (-l) true, st.2 || Function.update st.1 (-l) true l))
    (m, false)

def negated (ls : List ℤ) : List ℤ := ls.map fun l => -l

/-- `new_clause`, and the link to its chain. -/
def newClause (s : LratChecker) : LratChecker :=
  let marked := falsify s.checkedLits s.importedClause
  { s with
    checkedLits := setMarks marked.1 (negated s.importedClause) false
    numClauses := s.numClauses + 1
    clauses := Buckets.push s.clauses (s.slot s.lastId)
      ⟨computeHash s.lastId, s.lastId, false, marked.2, s.importedClause⟩ }

/-- `insert`. -/
def insert : LratM Unit := do
  modify fun s => if s.numClauses = s.clauses.length then s.enlargeClauses else s
  let s ← read
  require (0 ≤ s.lastId.tmod 4) .undefined
  modify newClause

/-! ## Importing -/

/-- The loop of `enlarge_vars`, which ends after at most `fuel` rounds when `fuel` is the variable. -/
def doubleSize (idx : ℕ) : ℕ → ℕ → ℕ
  | 0, size => size
  | fuel + 1, size => if size ≤ idx then doubleSize idx fuel (2 * size) else size

/-- `enlarge_vars`. -/
def enlargeVars (idx : ℕ) (s : LratChecker) : LratChecker :=
  { s with sizeVars := doubleSize idx idx (if s.sizeVars = 0 then 2 else 2 * s.sizeVars) }

/-- `import_literal`; for 0 there is no index. -/
def importLiteral (lit : ℤ) : LratM Unit := do
  require (lit ≠ 0) .undefined
  modify fun s => if s.sizeVars ≤ lit.natAbs then s.enlargeVars lit.natAbs else s
  modify fun s => { s with importedClause := s.importedClause ++ [lit] }

/-- `import_clause`. -/
def importClause (c : List ℤ) : LratM Unit := each importLiteral c

/-! ## Checking a chain -/

/-- `unit` after a look at some literals of a clause: 0, a literal, or `INT_MIN`. -/
inductive UnitScan
  | falsified
  | unit (l : ℤ)
  | several
  deriving DecidableEq, Repr

/-- The inner loop of `check`. -/
def scan (m : ℤ → Bool) : List ℤ → UnitScan → UnitScan
  | [], u => u
  | l :: ls, u =>
    if m (-l) then scan m ls u
    else match u with
      | .falsified => scan m ls (.unit l)
      | .unit x => if x = l then scan m ls (.unit l) else .several
      | .several => .several

/-- The outer loop of `check`: propagate along the chain until a clause is falsified. -/
def checkChain : List ℤ → List ℤ → (ℤ → Bool) → LratM Bool
  | [], _, _ => pure false
  | id :: ids, used, m => do
    match ← find id with
    | none => pure false
    | some c =>
      if c.tautological then pure false
      else if used.contains id then pure false
      else match scan m c.literals .falsified with
        | .several => pure false
        | .falsified => pure true
        | .unit l => checkChain ids (id :: used) (Function.update m l true)

/-- `check`. -/
def check (chain : List ℤ) : LratM Bool := do
  let s ← read
  let (m, taut) := falsify s.checkedLits s.importedClause
  if taut || chain.isEmpty || decide (chain.getLastD 0 < 0) then
    modify fun s => { s with checkedLits := setMarks m (negated s.importedClause) false }
    pure taut
  else
    let checking ← checkChain chain [] m
    modify fun s => { s with checkedLits := fun _ => false }
    pure checking

/-- Resolve with one more clause: a literal whose negation is there is resolved away. -/
def resolve (m : ℤ → Bool) (ls : List ℤ) : ℤ → Bool :=
  ls.foldl (fun m l => if m (-l) then Function.update m (-l) false else Function.update m l true) m

/-- The loop over the rest of the chain, last clause first. -/
def resolveChain : List ℤ → (ℤ → Bool) → LratM (ℤ → Bool)
  | [], m => pure m
  | id :: ids, m => do
    match ← find id with
    | none => raise .undefined
    | some c => resolveChain ids (resolve m c.literals)

/-- Mark both signs of each literal of the derived clause, unless its negation is left or it has come up
before. -/
def matchClause : List ℤ → (ℤ → Bool) → Option (ℤ → Bool)
  | [], m => some m
  | l :: ls, m =>
    if m (-l) then none else matchClause ls (Function.update (Function.update m l true) (-l) true)

/-- `check_resolution`. -/
def checkResolution (chain : List ℤ) : LratM Bool := do
  let s ← read
  if chain.isEmpty then pure true
  else if chain.getLastD 0 < 0 then pure false
  else match ← find (chain.getLastD 0) with
    | none => raise .undefined
    | some c =>
      let m ← resolveChain chain.dropLast.reverse (setMarks s.checkedLits c.literals true)
      match matchClause s.importedClause m with
      | none =>
        modify fun s => { s with checkedLits := fun _ => false }
        pure false
      | some m =>
        let vars := (List.range' 1 (s.sizeVars - 1)).map fun v : ℕ => (v : ℤ)
        modify fun s => { s with checkedLits := setMarks (setMarks m vars false) (negated vars) false }
        pure (vars.all fun v => m v == m (-v))

/-! ## Checking a blocked clause -/

/-- The body of the loop for a clause named by the chain: literals without a clash here are no candidates. -/
def keepCandidates (imported : List ℤ) (m : ℤ → Bool) (c : LratCheckerClause) : ℤ → Bool :=
  let candidates := c.literals.filter m
  imported.foldl (fun m l => if m (-l) && !candidates.contains (-l) then Function.update m (-l) false else m) m

/-- The body of the loop for any other clause: literals with a clash here are no candidates. -/
def dropCandidates (checked m : ℤ → Bool) (c : LratCheckerClause) : ℤ → Bool :=
  c.literals.foldl (fun m l => if checked l then Function.update m l false else m) m

/-- The loop of `check_blocked` over the table; `false` when a clause named by the chain has fewer than two
clashes. -/
def blockedLoop (chain imported : List ℤ) (checked : ℤ → Bool) :
    List LratCheckerClause → (ℤ → Bool) → Bool × (ℤ → Bool)
  | [], m => (true, m)
  | c :: cs, m =>
    if c.garbage then blockedLoop chain imported checked cs m
    else if chain.contains (-c.id) then
      if c.literals.countP checked < 2 then (false, m)
      else blockedLoop chain imported checked cs (keepCandidates imported m c)
    else blockedLoop chain imported checked cs (dropCandidates checked m c)

/-- `check_blocked`. -/
def checkBlocked (chain : List ℤ) : LratM Bool := do
  let s ← read
  let neg := negated s.importedClause
  let checked := setMarks s.checkedLits neg true
  let (passed, m) := blockedLoop chain s.importedClause checked s.clauses.flatten (setMarks s.marks neg true)
  modify fun s => { s with checkedLits := setMarks checked neg false, marks := setMarks m neg false }
  pure (passed && neg.any m)

/-! ## The calls -/

/-- The part `delete_clause`, `weaken_minus` and `finalize_clause` share: import the clause and find the one
with the identifier, whose literals must all be among the imported ones. -/
def findImported (missing : String) (id : ℤ) (c : List ℤ) : LratM LratCheckerClause := do
  importClause c
  modify fun s => { s with lastId := id }
  let d ← find id
  let s ← read
  match d with
  | none => raise (.fatal (missing ++ " clause not in proof:\n" ++ clauseText s.importedClause))
  | some d =>
    let m := setMarks s.marks s.importedClause true
    modify fun s => { s with marks := m }
    require (d.literals.all m) (.fatal ("deleted clause not in proof:\n" ++ clauseText s.importedClause))
    modify fun s => { s with marks := setMarks m s.importedClause false }
    pure d

/-- `restore_clause`. -/
def restoreClause (id : ℤ) (c : List ℤ) : LratM Unit := do
  let s ← read
  match s.clausesToReconstruct.lookup id with
  | none => raise (.fatal ("restoring clauses not deleted previously:\n" ++ clauseText c))
  | some d =>
    require (c.mergeSort (· ≤ ·) = d) (.fatal ("restoring clause that is different than the one imported:\n" ++
      clauseText c ++ "vs:\n" ++ clauseText d))
    modify fun s => { s with clausesToReconstruct := s.clausesToReconstruct.filter fun p => p.1 != id }

/-- An identifier must not be there already. -/
def requireNew (id : ℤ) : LratM Unit := do
  let d ← find id
  require d.isNone (.fatal ("different clause with id " ++ toString id ++ " already present\n"))

/-- `add_original_clause`. -/
def addOriginalClause (id : ℤ) (c : List ℤ) (restore : Bool) : LratM Unit := do
  doIf restore (restoreClause id c)
  importClause c
  modify fun s => { s with lastId := id }
  modify fun s => if !restore && id = 1 + s.currentId then { s with currentId := id } else s
  let s ← read
  doIf (!s.clauses.isEmpty && !restore) (requireNew id)
  insert
  modify fun s => { s with importedClause := [] }

/-- The first condition of `add_derived_clause`. -/
def chainDerives (chain : List ℤ) : LratM Bool := do
  let rup ← check chain
  if rup then checkResolution chain else pure false

/-- The checks of `add_derived_clause`. -/
def derives (chain : List ℤ) : LratM Bool := do
  let ok ← chainDerives chain
  if ok then pure true else checkBlocked chain

/-- `add_derived_clause`. -/
def addDerivedClause (id : ℤ) (c chain : List ℤ) : LratM Unit := do
  importClause c
  modify fun s => { s with lastId := id, currentId := id }
  let s ← read
  doIf (!s.clauses.isEmpty) (requireNew id)
  let ok ← derives chain
  let s ← read
  require ok (.fatal ("failed to check derived clause:\n" ++ clauseText s.importedClause))
  insert
  modify fun s => { s with importedClause := [] }

/-- `collect_garbage_clauses`. -/
def collectGarbageClauses (s : LratChecker) : LratChecker :=
  { s with numGarbage := s.numGarbage - s.garbage.length, garbage := [] }

/-- What `delete_clause` does with the clause it has found. -/
def discard (id : ℤ) (d : LratCheckerClause) (s : LratChecker) : LratChecker :=
  { s with
    numGarbage := s.numGarbage + 1
    numClauses := s.numClauses - 1
    clauses := Buckets.unlink s.clauses (s.slot id) (isClause id)
    garbage := { d with garbage := true } :: s.garbage }

/-- `delete_clause`. -/
def deleteClause (id : ℤ) (c : List ℤ) : LratM Unit := do
  let d ← findImported "deleted" id c
  modify (discard id d)
  modify fun s =>
    if max s.clauses.length s.sizeVars < 2 * s.numGarbage then s.collectGarbageClauses else s
  modify fun s => { s with importedClause := [] }

/-- `weaken_minus`. -/
def weakenMinus (id : ℤ) (c : List ℤ) : LratM Unit := do
  let _ ← findImported "weakened" id c
  modify fun s => { s with importedClause := [] }
  modify fun s => { s with clausesToReconstruct :=
    (id, c.mergeSort (· ≤ ·)) :: s.clausesToReconstruct.filter fun p => p.1 != id }

/-- `finalize_clause`. -/
def finalizeClause (id : ℤ) (c : List ℤ) : LratM Unit := do
  modify fun s => { s with numFinalized := s.numFinalized + 1 }
  let _ ← findImported "deleted" id c
  modify fun s => { s with importedClause := [] }

/-- `report_status`. -/
def reportStatus : LratM Unit := do
  let s ← read
  require (s.numFinalized = s.numClauses)
    (.fatal ("finalize check failed " ++ toString s.numClauses ++ " are not finalized"))
  modify fun s => { s with numFinalized := 0 }

/-- `add_assumption_clause`. -/
def addAssumptionClause (id : ℤ) (c chain : List ℤ) : LratM Unit := do
  let s ← read
  require (c.all fun l => s.assumptions.contains (-l) || s.constraint.contains (-l))
    (.fatal "clause contains non assumptions or constraint literals\n")
  addDerivedClause id c chain
  deleteClause id c
  modify fun s => { s with assumptionClauses := s.assumptionClauses ++ [id] }

/-- `add_constraint`, which keeps the first copy of each literal. -/
def addConstraint (c : List ℤ) (s : LratChecker) : LratChecker :=
  { s with constraint := c.foldl (fun ls l => if ls.contains l then ls else ls ++ [l]) [] }

/-- `reset_assumptions`. -/
def resetAssumptions (s : LratChecker) : LratChecker :=
  { s with assumptionClauses := [], assumptions := [], concluded := false }

/-- `ConclusionType`. -/
inductive ConclusionType
  | conflict
  | assumptions
  | constraint
  deriving DecidableEq, Repr

/-- `conclude_unsat`. -/
def concludeUnsat (conclusion : ConclusionType) (ids : List ℤ) : LratM Unit := do
  let s ← read
  require (!s.concluded) (.fatal "already concluded\n")
  modify fun s => { s with concluded := true }
  match conclusion with
  | .conflict =>
    require (!ids.isEmpty) .undefined
    let d ← find (ids.getLastD 0)
    require (d.any fun d => d.literals.isEmpty) (.fatal "empty clause not in proof\n")
  | .assumptions =>
    require (ids.length = 1 && s.assumptionClauses.length = 1)
      (.fatal "expected exactly one assumption clause\n")
    require (ids.getLast? = s.assumptionClauses.getLast?) (.fatal "conclusion is not an assumption clause\n")
  | .constraint =>
    require (s.constraint.length = ids.length)
      (.fatal ("not complete conclusion given for constraint\nThe constraint contains the literals: " ++
        String.join (s.constraint.map fun l => toString l ++ " ") ++ "\nThe ids are: " ++
        String.join (ids.map fun l => toString l ++ " ")))
    require (ids.all s.assumptionClauses.contains) (.fatal "assumption clause for constraint missing\n")

/-- The calls a proof makes. -/
inductive Event
  | beginProof (id : ℤ)
  | original (id : ℤ) (c : List ℤ) (restore : Bool)
  | derived (id : ℤ) (c chain : List ℤ)
  | assumptionClause (id : ℤ) (c chain : List ℤ)
  | assumption (a : ℤ)
  | constraint (c : List ℤ)
  | resetAssumptions
  | conclude (conclusion : ConclusionType) (ids : List ℤ)
  | delete (id : ℤ) (c : List ℤ)
  | weakenMinus (id : ℤ) (c : List ℤ)
  | finalize (id : ℤ) (c : List ℤ)
  | reportStatus
  deriving DecidableEq, Repr

/-- One call. -/
def call : Event → LratM Unit
  | .beginProof id => modify fun s => { s with currentId := id }
  | .original id c restore => addOriginalClause id c restore
  | .derived id c chain => addDerivedClause id c chain
  | .assumptionClause id c chain => addAssumptionClause id c chain
  | .assumption a => modify fun s => { s with assumptions := s.assumptions ++ [a] }
  | .constraint c => modify (addConstraint c)
  | .resetAssumptions => modify LratChecker.resetAssumptions
  | .conclude conclusion ids => concludeUnsat conclusion ids
  | .delete id c => deleteClause id c
  | .weakenMinus id c => LratChecker.weakenMinus id c
  | .finalize id c => finalizeClause id c
  | .reportStatus => LratChecker.reportStatus

/-- The clauses in the table. -/
def table (s : LratChecker) : List (List ℤ) := s.clauses.flatten.map (·.literals)

end LratChecker
end Zusat
