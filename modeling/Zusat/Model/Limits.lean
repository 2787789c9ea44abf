import Zusat.Model.Cadical

/-! # The limits a search starts with: `limit.cpp`

`Cadical.limits` lists the calls of `Solver::limit` since the last search. What they amount to is the six
numbers `Internal` keeps, each overwritten by the last call that names it. -/

namespace Zusat
set_option autoImplicit false

/-- `lim.terminate.forced` and the five numbers of `Inc`. -/
structure Budget where
  terminate : ℤ
  conflicts : ℤ
  decisions : ℤ
  preprocessing : ℤ
  localsearch : ℤ
  ticks : ℤ
  deriving DecidableEq, Repr

namespace Budget

/-- `Limit::Limit` and `Inc::Inc`, which `reset_limits` goes back to. -/
def unbounded : Budget := ⟨0, -1, -1, 0, 0, -1⟩

/-- `limit_terminate`. -/
def limitTerminate (l : ℤ) (b : Budget) : Budget :=
  if l ≤ 0 ∧ b.terminate = 0 then b else if l ≤ 0 then { b with terminate := 0 }
  else { b with terminate := l }

/-- `limit_conflicts`. -/
def limitConflicts (l : ℤ) (b : Budget) : Budget :=
  if l < 0 ∧ b.conflicts < 0 then b else if l < 0 then { b with conflicts := -1 }
  else { b with conflicts := l }

/-- `limit_decisions`. -/
def limitDecisions (l : ℤ) (b : Budget) : Budget :=
  if l < 0 ∧ b.decisions < 0 then b else if l < 0 then { b with decisions := -1 }
  else { b with decisions := l }

/-- `limit_ticks`. -/
def limitTicks (l : ℤ) (b : Budget) : Budget :=
  if l < 0 ∧ b.ticks < 0 then b else if l < 0 then { b with ticks := -1 } else { b with ticks := l }

/-- `limit_preprocessing`, which ignores a negative number. -/
def limitPreprocessing (l : ℤ) (b : Budget) : Budget :=
  if l < 0 then b else { b with preprocessing := l }

/-- `limit_local_search`, which ignores a negative number. -/
def limitLocalSearch (l : ℤ) (b : Budget) : Budget :=
  if l < 0 then b else { b with localsearch := l }

/-- `Internal::limit`. -/
def limit (b : Budget) (name : String) (l : ℤ) : Budget :=
  if name = "terminate" then b.limitTerminate l
  else if name = "conflicts" then b.limitConflicts l
  else if name = "decisions" then b.limitDecisions l
  else if name = "preprocessing" then b.limitPreprocessing l
  else if name = "localsearch" then b.limitLocalSearch l
  else if name = "ticks" then b.limitTicks l
  else b

end Budget

/-- The limits in force: what the calls since the last search made of the reset ones. -/
def Cadical.budget (c : Cadical) : Budget :=
  c.limits.foldl (fun b l => b.limit l.1 l.2) .unbounded

end Zusat
