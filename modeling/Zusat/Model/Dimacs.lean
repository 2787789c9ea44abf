import Zusat.Foundations.Cnf
import Zusat.Model.Values

/-! # Reading and writing DIMACS files: `R/dimacs.R`

A text is a list of characters, validly encoded and without NUL. What counts as `[[:space:]]` beyond
ASCII and how a number is printed is up to the locale, so it is a parameter. -/

namespace Zusat
open Foundations
set_option autoImplicit false

/-- The characters of `[[:space:]]`: the white space of ASCII, and none of its visible characters.
`printed` is `format(as.numeric(token), scientific = FALSE)`, for a long numeral a double near it. -/
structure Locale where
  isSpace : Char → Bool
  printed : List Char → String
  standard : ∀ c ∈ [' ', '\t', '\n', '\x0b', '\x0c', '\r'], isSpace c = true
  graphic : ∀ c : Char, 33 ≤ c.toNat → c.toNat ≤ 126 → isSpace c = false

namespace Dimacs

/-! ## Lines -/

/-- The lines of a text. A line ends at LF, CR or CRLF; what follows the last end is a line unless it
is empty. `cr` says that the line before was ended by CR, `line` is what the current one holds.
`readLines` splits a file like this, and `strsplit(x, "\r\n|\r|\n")` a string. -/
def splitLines (cr : Bool) (line : List Char) : List Char → List (List Char)
  | [] => if line = [] then [] else [line]
  | c :: cs =>
    if c = '\n' then
      if cr then splitLines false [] cs else line :: splitLines false [] cs
    else if c = '\r' then line :: splitLines true [] cs
    else splitLines false (line ++ [c]) cs

def readLines (text : List Char) : List (List Char) := splitLines false [] text

/-- `writeLines`. -/
def writeLines (lines : List (List Char)) : List Char := lines.flatMap (· ++ ['\n'])

/-! ## Reading -/

section Read
variable (sp : Locale)

/-- `grepl("^[[:space:]]*[marks]", line)`. -/
def startsWith (marks : List Char) (line : List Char) : Bool :=
  match line.dropWhile sp.isSpace with
  | [] => false
  | c :: _ => marks.contains c

/-- The lines that hold clauses. -/
def formulaLines (lines : List (List Char)) : List (List Char) :=
  let lines := match lines.findIdx? (startsWith sp ['%']) with
    | some i => lines.take i
    | none => lines
  lines.filter fun line => !startsWith sp ['c', 'p'] line

/-- `strsplit(x, "[[:space:]]+")`: the pieces between runs of blanks, the first one empty when the
text starts with a blank. -/
def strsplitSpace (inRun : Bool) (piece : List Char) : List Char → List (List Char)
  | [] => if piece = [] then [] else [piece]
  | c :: cs =>
    if sp.isSpace c then
      if inRun then strsplitSpace true [] cs else piece :: strsplitSpace true [] cs
    else strsplitSpace false (piece ++ [c]) cs

end Read

/-- A token without its sign. -/
def unsigned : List Char → List Char
  | [] => []
  | c :: cs => if c = '-' ∨ c = '+' then cs else c :: cs

/-- `grepl("^[-+]?[0-9]+$", token)`. -/
def isNumeral (token : List Char) : Bool :=
  !(unsigned token).isEmpty && (unsigned token).all Char.isDigit

/-- `as.numeric` of a numeral. -/
def asNumeric (token : List Char) : ℤ :=
  let n := (Nat.ofDigitChars 10 (unsigned token) 0 : ℤ)
  if token.head? = some '-' then -n else n

/-- `which(p(x))`, counting from `i`. -/
def which {α : Type} (p : α → Bool) (i : ℕ) : List α → List ℕ
  | [] => []
  | x :: xs => if p x then i :: which p (i + 1) xs else which p (i + 1) xs

/-- The positions where clauses end: the zeros, and one past the last value if that is no zero. -/
def clauseEnds (values : List ℤ) : List ℕ :=
  let ends := which (· == 0) 1 values
  if ends.getLast? = some values.length then ends else ends ++ [values.length + 1]

/-- `if (to <= from) integer() else values[seq(from, to - 1L)]`. -/
def clauseBetween (values : List ℤ) (start stop : ℕ) : List ℤ :=
  if stop ≤ start then [] else (values.drop (start - 1)).take (stop - start)

/-- The values cut at their zeros. -/
def cutClauses (values : List ℤ) : List (List ℤ) :=
  let ends := clauseEnds values
  let starts := 1 :: ends.dropLast.map (· + 1)
  List.zipWith (clauseBetween values) starts ends

/-- `basename`, without the expansion of a leading tilde. -/
def basename (path : String) : String :=
  let kept := (path.toList.reverse.dropWhile (· == '/')).takeWhile (· != '/')
  String.ofList kept.reverse

/-- The values of the tokens, all of them numerals in range. -/
def tokenValues (sp : Locale) (path : String) (tokens : List (List Char)) :
    Except RError (List ℤ) :=
  match tokens.find? (fun t => !isNumeral t) with
  | some bad => .error (.stop (s!"{basename path} is not a DIMACS file: unexpected token " ++
      s!"'{String.ofList bad}'"))
  | none =>
    match tokens.find? (fun t => decide (zusatMaxVar < (asNumeric t).natAbs)) with
    | some bad => .error (.stop (s!"{basename path} contains literal {sp.printed bad}, beyond the " ++
        s!"maximum variable index {zusatMaxVar}"))
    | none => .ok (tokens.map asNumeric)

def checkPath : RValue → Except RError String
  | .chr [some path] => .ok path
  | _ => .error (.stop "`path` must be a single file path")

/-- The clauses of a text. -/
def readFormula (sp : Locale) (path : String) (text : List Char) :
    Except RError (List (List ℤ)) :=
  let lines := formulaLines sp (readLines text)
  if lines = [] then .ok []
  else
    let pieces := strsplitSpace sp false [] ([' '].intercalate lines)
    let tokens := pieces.filter fun t => !t.isEmpty
    if tokens = [] then .ok [] else (tokenValues sp path tokens).map cutClauses

/-- `read_dimacs`; `file` is what the path leads to, if anything. -/
def readDimacs (sp : Locale) (path : RValue) (file : Option (List Char)) :
    Except RError (List (List ℤ)) := do
  let path ← checkPath path
  match file with
  | none => throw (.stop s!"no such file: {path}")
  | some text => readFormula sp path text

/-! ## Writing -/

/-- A number as `paste` and `%d` print it. -/
def decimal (z : ℤ) : List Char :=
  if z < 0 then '-' :: Nat.toDigits 10 z.natAbs else Nat.toDigits 10 z.natAbs

/-- The lines of a comment: every element cut at its line ends, an empty one kept as a line. -/
def commentPieces (comment : List String) : List (List Char) :=
  comment.flatMap fun text =>
    let pieces := splitLines false [] text.toList
    if pieces = [] then [[]] else pieces

def checkComment : RValue → Except RError (List String)
  | .null => .ok []
  | .chr xs =>
    match xs.mapM id with
    | some comment => .ok comment
    | none => .error (.stop "`comment` must be a character vector without NA")
  | _ => .error (.stop "`comment` must be a character vector without NA")

/-- `max(0L, vapply(clauses, ...))`. -/
def largestVar (clauses : List (List ℤ)) : ℕ := (clauses.map topVar).foldr max 0

def headerLine (clauses : List (List ℤ)) : List Char :=
  "p cnf ".toList ++ decimal (largestVar clauses) ++ [' '] ++ decimal clauses.length

/-- `paste(c(cl, 0L), collapse = " ")`. -/
def clauseLine (cl : List ℤ) : List Char := [' '].intercalate ((cl ++ [0]).map decimal)

/-- `write_dimacs`; the result is the content of the file. -/
def writeDimacs (x : RArg) (path comment : RValue) : Except RError (List Char) := do
  let x ← checkFormula "a list of clauses" x
  let _ ← checkPath path
  let comment ← checkComment comment
  let clauses ← asClauses "clauses" x
  return writeLines ((commentPieces comment).map ("c ".toList ++ ·) ++
    headerLine clauses :: clauses.map clauseLine)

end Dimacs
end Zusat
