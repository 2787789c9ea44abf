import Zusat.Foundations.Varint
import Zusat.Model.Dimacs

/-! # Proof files: `drattracer.cpp`, `file.hpp` and `helper-drat.R`

The tracer writes a step of the proof at every call, in text or in binary form, until its file is closed.
The tests read both forms back. -/

namespace Zusat
open Foundations
set_option autoImplicit false

/-- The kinds of steps: an added and a deleted clause. -/
inductive StepKind
  | a
  | d
  deriving DecidableEq, Repr

structure ProofStep (α : Type) where
  kind : StepKind
  literals : List α
  deriving DecidableEq, Repr

/-! ## Writing -/

/-- An output file of CaDiCaL. -/
structure ProofFile where
  content : List UInt8
  closed : Bool
  deriving DecidableEq, Repr

namespace ProofFile

def putByte (f : ProofFile) (ch : UInt8) : ProofFile := { f with content := f.content ++ [ch] }

/-- `put (char)`. -/
def putChar (f : ProofFile) (ch : Char) : ProofFile := f.putByte (UInt8.ofNat ch.toNat)

/-- `put (const char *)`. -/
def putChars (f : ProofFile) (s : List Char) : ProofFile := s.foldl putChar f

/-- The loop that fills the buffer from its end; `i` is the place of the last digit. -/
def fillBuffer : ℕ → ℕ → List Char → Option (List Char)
  | _, 0, buffer => some buffer
  | 0, _ + 1, _ => none
  | i + 1, idx + 1, buffer => fillBuffer i ((idx + 1) / 10) (Char.ofNat (48 + (idx + 1) % 10) :: buffer)

/-- `put (int)`, with its buffer of eleven characters; no result if it is too small. -/
def putInt (f : ProofFile) (lit : ℤ) : Option ProofFile :=
  if lit = 0 then some (f.putChar '0')
  else if lit = -2147483648 then some (f.putChars "-2147483648".toList)
  else (fillBuffer 10 lit.natAbs []).map fun buffer =>
    (if lit < 0 then f.putChar '-' else f).putChars buffer

end ProofFile

structure DratTracer where
  binary : Bool
  file : ProofFile
  deriving DecidableEq, Repr

/-- The calls a proof tracer gets that the DRAT tracer acts on. -/
inductive TracerCall
  | addDerivedClause (clause : List ℤ)
  | deleteClause (clause : List ℤ)
  | flush
  | close
  deriving DecidableEq, Repr

namespace DratTracer

/-- `put_binary_lit`; the loop `while (x & ~0x7f)` is `Varint.bytes`. -/
def putBinaryLit (f : ProofFile) (lit : ℤ) : ProofFile :=
  let x := 2 * lit.natAbs + (if lit < 0 then 1 else 0)
  (Varint.bytes x).foldl ProofFile.putByte f

/-- The literals of a clause and what ends them. -/
def putLits (binary : Bool) (clause : List ℤ) (f : ProofFile) : Option ProofFile :=
  if binary then some ((clause.foldl putBinaryLit f).putByte 0)
  else (clause.foldlM (fun f lit => (ProofFile.putInt f lit).map fun f => f.putChar ' ') f).map
    fun f => f.putChars "0\n".toList

def dratAddClause (t : DratTracer) (clause : List ℤ) : Option DratTracer :=
  let f := if t.binary then t.file.putChar 'a' else t.file
  (putLits t.binary clause f).map fun f => { t with file := f }

def dratDeleteClause (t : DratTracer) (clause : List ℤ) : Option DratTracer :=
  let f := if t.binary then t.file.putChar 'd' else t.file.putChars "d ".toList
  (putLits t.binary clause f).map fun f => { t with file := f }

def addDerivedClause (t : DratTracer) (clause : List ℤ) : Option DratTracer :=
  if t.file.closed then some t else t.dratAddClause clause

def deleteClause (t : DratTracer) (clause : List ℤ) : Option DratTracer :=
  if t.file.closed then some t else t.dratDeleteClause clause

def call (t : DratTracer) : TracerCall → Option DratTracer
  | .addDerivedClause clause => t.addDerivedClause clause
  | .deleteClause clause => t.deleteClause clause
  | .flush => some t
  | .close => some { t with file := { t.file with closed := true } }

def run (t : DratTracer) : List TracerCall → Option DratTracer
  | [] => some t
  | c :: cs => (t.call c).bind fun t => t.run cs

def new (binary : Bool) : DratTracer := ⟨binary, ⟨[], false⟩⟩

end DratTracer

/-! ## Reading -/

namespace DratHelper

/-- The literal of a code: `as.integer(x %/% 2)`, negated for an odd one. -/
def decodeLiteral (x : ℕ) : Option ℤ :=
  if x / 2 < 2 ^ 31 then some (if x % 2 = 1 then -(x / 2 : ℕ) else (x / 2 : ℕ)) else none

def truncated : String := "truncated proof: no terminator"

/-- The loop over the literals of a step. -/
def decodeLits : ℕ → List UInt8 → List (Option ℤ) → Except String (List (Option ℤ) × List UInt8)
  | 0, _, _ => .error truncated
  | _, [], _ => .error truncated
  | fuel + 1, b :: bs, lits =>
    if b = 0 then .ok (lits, bs)
    else match Varint.read 0 0 (b :: bs) with
      | none => .error truncated
      | some (x, rest) => decodeLits fuel rest (lits ++ [decodeLiteral x])

def hexDigits (b : UInt8) : String :=
  String.ofList [Nat.digitChar (b.toNat / 16), Nat.digitChar (b.toNat % 16)]

/-- The loop over the steps of a file of `n` bytes, of which `bytes` are left. -/
def decodeSteps (n : ℕ) : ℕ → List UInt8 → List (ProofStep (Option ℤ)) →
    Except String (List (ProofStep (Option ℤ)))
  | _, [], steps => .ok steps
  | 0, _, _ => .error truncated
  | fuel + 1, marker :: bytes, steps =>
    if marker ≠ 0x61 ∧ marker ≠ 0x64 then
      .error s!"byte {n - bytes.length}: expected a step marker, got 0x{hexDigits marker}"
    else do
      let (lits, rest) ← decodeLits (bytes.length + 1) bytes []
      decodeSteps n fuel rest (steps ++ [⟨if marker = 0x61 then .a else .d, lits⟩])

/-- `decode_binary_drat`. -/
def decodeBinaryDrat (bytes : List UInt8) : Except String (List (ProofStep (Option ℤ))) :=
  decodeSteps bytes.length bytes.length bytes []

/-- `trimws`. -/
def trimws (line : List Char) : List Char :=
  let blank := fun c => [' ', '\t', '\r', '\n'].contains c
  ((line.dropWhile blank).reverse.dropWhile blank).reverse

/-- What `as.integer` makes of texts: of a numeral its number, if it is an integer of 32 bits. -/
structure IntegerClass where
  asInteger : List Char → Option ℤ
  numeral : ∀ t, Dimacs.isNumeral t = true → (Dimacs.asNumeric t).natAbs < 2 ^ 31 →
    asInteger t = some (Dimacs.asNumeric t)

variable (sp : Locale) (ic : IntegerClass)

/-- The step of one line. -/
def parseLine (line : List Char) : ProofStep (Option ℤ) :=
  let tokens := Dimacs.strsplitSpace sp false [] line
  let kind := if tokens.head? = some ['d'] then StepKind.d else .a
  let tokens := if kind = .d then tokens.tail else tokens
  ⟨kind, (tokens.map ic.asInteger).filter (· ≠ some 0)⟩

/-- `parse_text_drat`. -/
def parseTextDrat (bytes : List UInt8) : List (ProofStep (Option ℤ)) :=
  let lines := (Dimacs.readLines (bytes.map fun b => Char.ofNat b.toNat)).map trimws
  (lines.filter fun line => !line.isEmpty).map (parseLine sp ic)

/-- `simulate_crlf_translation`. -/
def simulateCrlfTranslation (bytes : List UInt8) : List UInt8 :=
  bytes.foldl (fun out b => out ++ (if b = 0x0a then [0x0d, 0x0a] else [b])) []

end DratHelper
end Zusat
