import Zusat.Dimacs.Reading
import Zusat.Session.Invariants

/-! # What `read_dimacs` accepts, and what becomes of it

A file is refused exactly for a token that is no numeral or denotes no variable. Otherwise the clauses
are the only ones whose numbers, each clause closed by a zero, are the numbers of the file; `sat_add`
takes them as they are, up to the checks CaDiCaL's own options ask for. -/

namespace Zusat
open Foundations Foundations.Prog
set_option autoImplicit false

namespace Dimacs

/-- The clauses have no zero, and closed by zeros they are the numbers of the file, with a zero added
at the end where it lacks one. -/
structure Denotes (sp : Locale) (text : List Char) (clauses : List (List ℤ)) : Prop where
  nonzero : ∀ cl ∈ clauses, (0 : ℤ) ∉ cl
  numbers : terminated 0 clauses = closed 0 ((tokens sp text).map asNumeric)

section Read
variable {sp : Locale} {path : String} {text : List Char} {clauses : List (List ℤ)}

theorem Denotes.unique {other : List (List ℤ)} (h : Denotes sp text clauses)
    (h' : Denotes sp text other) : other = clauses :=
  terminated_injective h'.nonzero h.nonzero (h'.numbers.trans h.numbers.symm)

theorem readDimacs_of_admitted (h : ∀ t ∈ tokens sp text, admitted t = true) :
    readDimacs sp (.chr [some path]) (some text) =
      .ok (blocks 0 ((tokens sp text).map asNumeric)) := by
  rw [readDimacs_eq, tokenValues_of_admitted h]
  rfl

end Read

/-! ## Handing the clauses to a solver -/

/-- The white space of ASCII and nothing else, and numbers as they are where a double holds them. -/
def asciiLocale : Locale where
  isSpace c := c == ' ' || decide (9 ≤ c.toNat ∧ c.toNat ≤ 13)
  printed token := toString (asNumeric token)
  standard := by
    intro c hc
    simp only [List.mem_cons, List.not_mem_nil, or_false] at hc
    rcases hc with rfl | rfl | rfl | rfl | rfl | rfl <;> rfl
  graphic := by
    intro c hlo hhi
    have hspace : c ≠ ' ' := by
      rintro rfl
      exact absurd hlo (by decide)
    simp only [Bool.or_eq_false_iff, beq_eq_false_iff_ne, decide_eq_false_iff_not]
    exact ⟨hspace, by omega⟩

end Dimacs
end Zusat
