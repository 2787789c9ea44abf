import Mathlib.Algebra.Order.Ring.Abs
import Mathlib.Algebra.Order.Ring.Rat
import Mathlib.Algebra.Order.Ring.Int
import Mathlib.Data.Rat.Lemmas
import Mathlib.Algebra.Order.Ring.Cast
import Mathlib.Tactic.Common

/-! # R values at the package's boundary, and the validators of `R/solver.R`

The exported functions take whatever R hands them. A vector is kept down to the distinctions the
validators make: `NULL`, a numeric vector with its missing, non-finite and fractional elements, a
character or logical vector, and anything else by its class. Finite doubles are rationals.

Every refusal carries its text. `RError` tells apart the refusals of the package (`stop` in R,
`Rf_error` in `zusat.c`; `auxVariable` is the one of `check_not_aux`) from the two ways CaDiCaL
raises by `longjmp`: a violated API contract and a fatal error.
-/

namespace Zusat
set_option autoImplicit false

/-- `ZUSAT_MAX_VAR`, the largest variable index the package accepts. -/
def zusatMaxVar : ℕ := 10000000

/-- `.Machine$integer.max`. -/
def integerMax : ℕ := 2147483647

/-- `NA_INTEGER`, which is also C's `INT_MIN`. -/
def naInteger : ℤ := -2147483648

/-- How a call fails. -/
inductive RError where
  | stop (text : String)
  | auxVariable (arg : String) (v : ℕ)
  | contract (function text : String)
  | fatal (text : String)
  deriving DecidableEq, Repr

/-- The error comes out of CaDiCaL, not out of one of the package's own checks. -/
def RError.fromCadical : RError → Bool
  | .contract _ _ => true
  | .fatal _ => true
  | _ => false

/-- A CaDiCaL `REQUIRE` failed. -/
def RError.isContract : RError → Bool
  | .contract _ _ => true
  | _ => false

/-- The package refuses with a text of its own. -/
def RError.isStop : RError → Bool
  | .stop _ => true
  | _ => false

/-- The error is the refusal of an auxiliary variable. -/
def RError.isAux : RError → Bool
  | .auxVariable _ _ => true
  | _ => false

theorem RError.fromCadical_of_stop {e : RError} (h : e.isStop = true) : e.fromCadical = false := by
  cases e with
  | stop t => rfl
  | _ => cases h

theorem RError.isAux_of_stop {e : RError} (h : e.isStop = true) : e.isAux = false := by
  cases e with
  | stop t => rfl
  | _ => cases h

theorem RError.isAux_of_fromCadical {e : RError} (h : e.fromCadical = true) : e.isAux = false := by
  cases e with
  | auxVariable => cases h
  | _ => rfl

theorem RError.not_contract {e : RError} (h : e.fromCadical = false) : e.isContract = false := by
  cases e with
  | contract f t => cases h
  | _ => rfl

/-- The message of an error, as R shows it. -/
def RError.message : RError → String
  | .stop text => text
  | .auxVariable arg v =>
    s!"`{arg}` uses variable {v}, an auxiliary variable introduced by an earlier cardinality " ++
    "constraint; number your own variables first with sat_reserve(solver, n) so encodings " ++
    "allocate above them"
  | .contract function text => s!"invalid API usage of '{function}': {text}"
  | .fatal text => s!"fatal error: {text}"

/-! ## Values -/

/-- One element of a numeric vector. -/
inductive RNum where
  | na
  | nan
  | inf (negative : Bool)
  | fin (q : ℚ)
  deriving DecidableEq, Repr

namespace RNum

/-- `is.na`, true of `NaN` as well. -/
def isNA : RNum → Bool
  | na => true
  | nan => true
  | _ => false

/-- `is.finite`. -/
def isFinite : RNum → Bool
  | fin _ => true
  | _ => false

/-- `trunc` followed by `as.integer`, on a finite value. -/
def asInteger : RNum → ℤ
  | fin q => q.num.tdiv q.den
  | _ => 0

/-- `x == trunc(x)`; true of the infinities. -/
def isWhole : RNum → Bool
  | fin q => q = (q.num.tdiv q.den : ℤ)
  | _ => true

/-- `abs(x) > bound`. -/
def absGt (bound : ℕ) : RNum → Bool
  | fin q => (bound : ℚ) < |q|
  | inf _ => true
  | _ => false

/-- `x < z` for a whole number `z`. -/
def lt (x : RNum) (z : ℤ) : Bool :=
  match x with
  | fin q => q < (z : ℚ)
  | inf negative => negative
  | _ => false

/-- `x > z` for a whole number `z`. -/
def gt (x : RNum) (z : ℤ) : Bool :=
  match x with
  | fin q => (z : ℚ) < q
  | inf negative => !negative
  | _ => false

end RNum

/-- An R value that is not a list. -/
inductive RValue where
  | null
  | num (xs : List RNum)
  | chr (xs : List (Option String))
  | lgl (xs : List (Option Bool))
  | other (cls : String)
  deriving DecidableEq, Repr

/-- `class(x)[1]`. -/
def RValue.cls : RValue → String
  | .null => "NULL"
  | .num _ => "numeric"
  | .chr _ => "character"
  | .lgl _ => "logical"
  | .other cls => cls

/-- An integer vector. -/
def RValue.ints (ls : List ℤ) : RValue := .num (ls.map fun z : ℤ => .fin (z : ℚ))

/-- An argument where a formula is expected: a plain value, a list of values, or a data frame
(which is a list too, and is refused). -/
inductive RArg where
  | value (v : RValue)
  | list (xs : List RValue)
  | dataFrame
  deriving DecidableEq, Repr

/-! ## Literals, clauses and variables -/

/-- `as_literals`. -/
def asLiterals (arg : String) : RValue → Except RError (List ℤ)
  | .null => .ok []
  | .num xs =>
    if xs.any RNum.isNA then .error (.stop s!"`{arg}` must not be NA")
    else if !xs.all RNum.isFinite then .error (.stop s!"`{arg}` must be finite")
    else if !xs.all RNum.isWhole then .error (.stop s!"`{arg}` must be whole numbers")
    else if xs.any (RNum.absGt zusatMaxVar) then
      .error (.stop (s!"`{arg}` must be at most {zusatMaxVar} in absolute value: CaDiCaL " ++
        "allocates one slot per variable up to the largest index used, so a larger one " ++
        "exhausts memory"))
    else if (xs.map RNum.asInteger).any (· == 0) then
      .error (.stop s!"`{arg}` must not contain 0; clauses are terminated automatically")
    else .ok (xs.map RNum.asInteger)
  | v => .error (.stop s!"`{arg}` must be numeric, not {v.cls}")

/-- The position of the first `NULL` of a list, counted from 1. -/
def firstNull (xs : List RValue) : Option ℕ :=
  (xs.findIdx? (· == .null)).map (· + 1)

/-- `as_clauses`. -/
def asClauses (arg : String) (xs : List RValue) : Except RError (List (List ℤ)) :=
  match firstNull xs with
  | some i => .error (.stop (s!"clause {i} is NULL; use integer() for the empty clause, " ++
      "or drop the element"))
  | none => xs.mapM (asLiterals arg)

/-- `check_formula`: the elements of a list that is not a data frame. -/
def checkFormula (what : String) : RArg → Except RError (List RValue)
  | .list xs => .ok xs
  | _ => .error (.stop s!"`x` must be {what}")

/-- `as_variables`. -/
def asVariables (arg : String) (v : RValue) : Except RError (List ℤ) :=
  match asLiterals arg v with
  | .error e => .error e
  | .ok ls =>
    if ls.any (· < 0) then
      .error (.stop s!"`{arg}` must be variable numbers, not negative literals")
    else .ok ls

/-! ## What the validators guarantee -/

/-- A literal the validators admit. -/
def ValidLit (l : ℤ) : Prop := l ≠ 0 ∧ l.natAbs ≤ zusatMaxVar

instance (l : ℤ) : Decidable (ValidLit l) := inferInstanceAs (Decidable (_ ∧ _))

theorem RNum.asInteger_intCast (z : ℤ) : RNum.asInteger (.fin z) = z := by
  simp [RNum.asInteger]

theorem RNum.isWhole_iff {x : RNum} (h : x.isFinite) (hw : x.isWhole) :
    x = .fin (x.asInteger : ℚ) := by
  cases x with
  | fin q =>
    simp only [RNum.isWhole, decide_eq_true_eq] at hw
    simp only [RNum.asInteger, RNum.fin.injEq]
    exact hw
  | _ => simp [RNum.isFinite] at h

theorem RNum.absGt_intCast (b : ℕ) (z : ℤ) : RNum.absGt b (.fin z) = decide (b < z.natAbs) := by
  have h : ((b : ℚ) < |(z : ℚ)|) ↔ b < z.natAbs := by
    rw [← Int.cast_abs, Int.abs_eq_natAbs, Int.cast_natCast, Nat.cast_lt]
  simp only [RNum.absGt, h]

theorem ValidLit.neg {l : ℤ} (h : ValidLit l) : ValidLit (-l) :=
  ⟨Int.neg_ne_zero.mpr h.1, by rw [Int.natAbs_neg]; exact h.2⟩

/-- What passes `as_literals` is a vector of valid literals. -/
theorem asLiterals_valid {arg : String} {v : RValue} {ls : List ℤ}
    (h : asLiterals arg v = .ok ls) : ∀ l ∈ ls, ValidLit l := by
  cases v with
  | null =>
    obtain rfl : [] = ls := Except.ok.inj h
    simp
  | num xs =>
    simp only [asLiterals] at h
    split_ifs at h with hna hfin hwhole hmax hzero
    obtain rfl := Except.ok.inj h
    intro l hl
    obtain ⟨x, hx, rfl⟩ := List.mem_map.mp hl
    have hxf : x.isFinite := by
      have := List.all_eq_true.mp (by simpa using hfin) x hx
      simpa using this
    have hxw : x.isWhole := by
      have := List.all_eq_true.mp (by simpa using hwhole) x hx
      simpa using this
    have hxm : RNum.absGt zusatMaxVar x = false := by
      by_contra hc
      exact hmax (List.any_eq_true.mpr ⟨x, hx, by simpa using hc⟩)
    rw [RNum.isWhole_iff hxf hxw, RNum.absGt_intCast] at hxm
    refine ⟨fun h0 => hzero (List.any_eq_true.mpr ⟨_, hl, by simpa using h0⟩), ?_⟩
    simpa using hxm
  | _ => simp [asLiterals] at h

/-- Valid literals pass `as_literals` unchanged. -/
theorem asLiterals_ints {arg : String} {ls : List ℤ} (h : ∀ l ∈ ls, ValidLit l) :
    asLiterals arg (.ints ls) = .ok ls := by
  have hint : ((ls.map fun z : ℤ => RNum.fin (z : ℚ)).map RNum.asInteger) = ls := by
    rw [List.map_map]
    simp [Function.comp_def, RNum.asInteger_intCast]
  have hna : (ls.map fun z : ℤ => RNum.fin (z : ℚ)).any RNum.isNA = false := by
    simp [RNum.isNA]
  have hfin : (ls.map fun z : ℤ => RNum.fin (z : ℚ)).all RNum.isFinite = true := by
    simp [RNum.isFinite]
  have hwhole : (ls.map fun z : ℤ => RNum.fin (z : ℚ)).all RNum.isWhole = true := by
    simp [RNum.isWhole]
  have hmax : (ls.map fun z : ℤ => RNum.fin (z : ℚ)).any (RNum.absGt zusatMaxVar) = false := by
    rw [List.any_eq_false]
    intro x hx
    obtain ⟨z, hz, rfl⟩ := List.mem_map.mp hx
    rw [RNum.absGt_intCast]
    simpa using (h z hz).2
  have hzero : ls.any (· == 0) = false := by
    rw [List.any_eq_false]
    intro z hz
    simpa using (h z hz).1
  simp only [RValue.ints, asLiterals, hna, hfin, hwhole, hmax, hint, hzero]
  rfl

theorem asVariables_valid {arg : String} {v : RValue} {ls : List ℤ}
    (h : asVariables arg v = .ok ls) : ∀ l ∈ ls, ValidLit l ∧ 0 < l := by
  simp only [asVariables] at h
  split at h
  · cases h
  · rename_i ls' hls
    split_ifs at h with hneg
    obtain rfl := Except.ok.inj h
    intro l hl
    have hv := asLiterals_valid hls l hl
    refine ⟨hv, ?_⟩
    have hnn : ¬ l < 0 := fun hc => hneg (List.any_eq_true.mpr ⟨l, hl, by simpa using hc⟩)
    have := hv.1
    omega

theorem mapM_except_mem {α β : Type} {f : α → Except RError β} :
    ∀ {xs : List α} {ys : List β}, xs.mapM f = .ok ys → ∀ y ∈ ys, ∃ x ∈ xs, f x = .ok y
  | [], ys, h, y, hy => by
      rw [List.mapM_nil] at h
      obtain rfl : [] = ys := Except.ok.inj h
      cases hy
  | x :: xs, ys, h, y, hy => by
      rw [List.mapM_cons] at h
      cases hx : f x with
      | error e => rw [hx] at h; cases h
      | ok b =>
        cases hxs : xs.mapM f with
        | error e => rw [hx, hxs] at h; cases h
        | ok bs =>
          rw [hx, hxs] at h
          obtain rfl : b :: bs = ys := Except.ok.inj h
          rcases List.mem_cons.mp hy with rfl | hy'
          · exact ⟨x, List.mem_cons_self .., hx⟩
          · obtain ⟨z, hz, hfz⟩ := mapM_except_mem hxs y hy'
            exact ⟨z, List.mem_cons_of_mem x hz, hfz⟩

theorem asClauses_valid {arg : String} {xs : List RValue} {cls : List (List ℤ)}
    (h : asClauses arg xs = .ok cls) : ∀ cl ∈ cls, ∀ l ∈ cl, ValidLit l := by
  simp only [asClauses] at h
  split at h
  · cases h
  · intro cl hcl
    obtain ⟨v, _, hv⟩ := mapM_except_mem h cl hcl
    exact asLiterals_valid hv

end Zusat
