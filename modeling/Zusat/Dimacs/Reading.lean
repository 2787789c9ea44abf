import Zusat.Foundations.Splitting
import Zusat.Model.Dimacs

/-! # What `read_dimacs` reads

The reader cuts a file into lines, lines into tokens, and their values into clauses by the positions
of the zeros. Said without positions: the tokens are the words of the formula's lines, and the clauses
are the blocks of their values that zeros terminate. -/

namespace Zusat
open Foundations
set_option autoImplicit false

namespace Dimacs

section Spec
variable (sp : Locale) (text : List Char)

/-- The lines before the first that starts with `%`, without those that start with `c` or `p`. -/
def content : List (List Char) :=
  ((readLines text).takeWhile fun line => !startsWith sp ['%'] line).filter
    fun line => !startsWith sp ['c', 'p'] line

/-- The blank-separated tokens of the content. -/
def tokens : List (List Char) := (content sp text).flatMap (words sp.isSpace)

/-- A token that denotes a literal or a terminator. -/
def admitted (token : List Char) : Bool :=
  isNumeral token && decide ((asNumeric token).natAbs ≤ zusatMaxVar)

end Spec

/-! ## Lines and tokens -/

theorem take_findIdx {α : Type} (p : α → Bool) (xs : List α) :
    (match xs.findIdx? p with | some i => xs.take i | none => xs) = xs.takeWhile fun x => !p x := by
  induction xs with
  | nil => rfl
  | cons x xs ih =>
    rw [List.findIdx?_cons, List.takeWhile_cons]
    by_cases hx : p x = true
    · simp [hx]
    · rw [if_neg hx, if_pos (by simpa using hx), ← ih]
      cases xs.findIdx? p with
      | none => rfl
      | some i => rfl

theorem formulaLines_readLines (sp : Locale) (text : List Char) :
    formulaLines sp (readLines text) = content sp text :=
  congrArg (List.filter _) (take_findIdx _ _)

/-- Dropping the empty pieces of a split at runs of blanks leaves the words. -/
theorem filter_strsplitSpace (sp : Locale) {inRun : Bool} {piece : List Char}
    (hpiece : ∀ c ∈ piece, sp.isSpace c = false) (hrun : inRun = true → piece = []) (cs : List Char) :
    (strsplitSpace sp inRun piece cs).filter (fun t => !t.isEmpty) =
      words sp.isSpace (piece ++ cs) := by
  have hword : ∀ {p : List Char}, (∀ c ∈ p, sp.isSpace c = false) →
      words sp.isSpace p = if p = [] then [] else [p] := by
    intro p hp
    by_cases hnil : p = []
    · rw [hnil]
      rfl
    · rw [if_neg hnil, words_single hnil hp]
  induction cs generalizing inRun piece with
  | nil =>
    rw [strsplitSpace, List.append_nil, hword hpiece]
    split
    · rfl
    · next hnil => simp [hnil]
  | cons c cs ih =>
    have hnone : ∀ x ∈ ([] : List Char), sp.isSpace x = false := by simp
    by_cases hc : sp.isSpace c = true
    · rw [strsplitSpace, if_pos hc, words_append_cons hc, hword hpiece]
      split
      · next hin => rw [ih hnone fun _ => rfl, if_pos (hrun hin), List.nil_append, List.nil_append]
      · rw [List.filter_cons, ih hnone fun _ => rfl]
        by_cases hnil : piece = []
        · simp [hnil]
        · simp [hnil]
    · have hnext : ∀ x ∈ piece ++ [c], sp.isSpace x = false := by
        intro x hx
        rcases List.mem_append.mp hx with hx | hx
        · exact hpiece x hx
        · rw [List.mem_singleton.mp hx]
          simpa using hc
      rw [strsplitSpace, if_neg hc, ih hnext (by simp), List.append_assoc, List.singleton_append]

theorem filter_pieces (sp : Locale) (text : List Char) :
    (strsplitSpace sp false [] ([' '].intercalate (content sp text))).filter (fun t => !t.isEmpty) =
      tokens sp text := by
  rw [filter_strsplitSpace sp (by simp) (by simp), List.nil_append,
    words_intercalate (sp.standard ' ' (by simp)), tokens]

/-! ## Clauses -/

section Cut
variable (all : List ℤ)

/-- The ends found in what is left of the values, `i` being the position of its first. -/
def endsFrom (i : ℕ) (rest : List ℤ) : List ℕ :=
  let ends := which (· == 0) i rest
  if ends.getLast? = some (i + rest.length - 1) then ends else ends ++ [i + rest.length]

theorem endsFrom_cons_cons (i : ℕ) (x y : ℤ) (ys : List ℤ) :
    endsFrom i (x :: y :: ys) =
      if x = 0 then i :: endsFrom (i + 1) (y :: ys) else endsFrom (i + 1) (y :: ys) := by
  have hlen : i + (x :: y :: ys).length = i + 1 + (y :: ys).length := by
    simp only [List.length_cons]
    omega
  rw [endsFrom, endsFrom, which, hlen]
  by_cases hx : x = 0
  · simp only [hx, beq_self_eq_true, if_true]
    cases hends : which (· == 0) (i + 1) (y :: ys) with
    | nil =>
      have hne : i ≠ i + 1 + ys.length := by omega
      simp [hne]
    | cons e ends =>
      rw [List.getLast?_cons_cons]
      split <;> rfl
  · simp [hx]

/-- One clause is what stands between its start and its end. -/
theorem clauseBetween_eq {pre cur rest : List ℤ} (hall : all = pre ++ cur ++ rest) :
    clauseBetween all (pre.length + 1) (pre.length + cur.length + 1) = cur := by
  rw [clauseBetween]
  split
  · next h =>
    have hlen : cur.length = 0 := by omega
    exact (List.length_eq_zero_iff.mp hlen).symm
  · rw [hall, Nat.add_sub_cancel, List.append_assoc, List.drop_left, List.take_left' (by omega)]

/-- Cutting by positions what comes after `pre`, of which `cur` has been passed, gives the blocks. -/
theorem cut_blocks {pre cur rest : List ℤ} (hall : all = pre ++ cur ++ rest) (hcur : (0 : ℤ) ∉ cur)
    (hrest : rest ≠ []) :
    List.zipWith (clauseBetween all)
        ((pre.length + 1) ::
          (endsFrom (pre.length + cur.length + 1) rest).dropLast.map (· + 1))
        (endsFrom (pre.length + cur.length + 1) rest) = blocks 0 (cur ++ rest) := by
  induction rest generalizing pre cur with
  | nil => exact absurd rfl hrest
  | cons x rest ih =>
    cases rest with
    | nil =>
      by_cases hx : x = 0
      · subst hx
        rw [blocks_append_cons hcur]
        simp only [endsFrom, which, blocks, beq_self_eq_true, if_true, List.getLast?_singleton,
          List.length_singleton, Nat.add_sub_cancel, List.dropLast_singleton, List.map_nil,
          List.zipWith_cons_cons, List.zipWith_nil_right]
        rw [clauseBetween_eq all hall]
      · have hlast : (0 : ℤ) ∉ cur ++ [x] := by
          simp only [List.mem_append, List.mem_singleton, not_or]
          exact ⟨hcur, Ne.symm hx⟩
        have hends : endsFrom (pre.length + cur.length + 1) [x] =
            [pre.length + (cur ++ [x]).length + 1] := by
          simp [endsFrom, which, hx, Nat.add_assoc]
        rw [hends]
        simp only [List.dropLast_singleton, List.map_nil, List.zipWith_cons_cons,
          List.zipWith_nil_right]
        have hall' : all = pre ++ (cur ++ [x]) ++ [] := by
          rw [hall, List.append_nil, List.append_assoc]
        rw [clauseBetween_eq all hall', blocks_of_not_mem hlast (by simp)]
    | cons y ys =>
      rw [endsFrom_cons_cons]
      by_cases hx : x = 0
      · subst hx
        have hall' : all = (pre ++ cur ++ [0]) ++ [] ++ (y :: ys) := by
          rw [hall, List.append_nil, List.append_assoc _ [0], List.singleton_append]
        have hpos : (pre ++ cur ++ [(0 : ℤ)]).length = pre.length + cur.length + 1 := by
          simp only [List.length_append, List.length_singleton]
        have hnext := ih hall' (by simp) (by simp)
        rw [hpos, List.length_nil, Nat.add_zero, List.nil_append] at hnext
        have hne : endsFrom (pre.length + cur.length + 1 + 1) (y :: ys) ≠ [] := by
          intro h
          rw [h, List.zipWith_nil_right] at hnext
          exact absurd (blocks_eq_nil.mp hnext.symm) (by simp)
        rw [if_pos rfl, List.dropLast_cons_of_ne_nil hne, List.map_cons, List.zipWith_cons_cons,
          clauseBetween_eq all hall, blocks_append_cons hcur, hnext]
      · have hall' : all = pre ++ (cur ++ [x]) ++ (y :: ys) := by
          rw [hall]
          simp only [List.append_assoc, List.singleton_append]
        have hcur' : (0 : ℤ) ∉ cur ++ [x] := by
          simp only [List.mem_append, List.mem_singleton, not_or]
          exact ⟨hcur, Ne.symm hx⟩
        have hnext := ih hall' hcur' (by simp)
        rw [List.length_append, List.length_singleton, ← Nat.add_assoc, List.append_assoc,
          List.singleton_append] at hnext
        rw [if_neg hx, hnext]

end Cut

theorem cutClauses_eq {values : List ℤ} (h : values ≠ []) : cutClauses values = blocks 0 values := by
  have hends : clauseEnds values = endsFrom 1 values := by
    rw [clauseEnds, endsFrom, Nat.add_sub_cancel_left, Nat.add_comm 1]
  rw [cutClauses, hends]
  have hcut := @cut_blocks values [] [] values rfl (by simp) h
  exact hcut

/-! ## The reader as a whole -/

theorem tokenValues_nil (sp : Locale) (path : String) : tokenValues sp path [] = .ok [] := rfl

/-- The values of the tokens are as many as the tokens. -/
theorem tokenValues_ok {sp : Locale} {path : String} {ts : List (List Char)} {values : List ℤ}
    (h : tokenValues sp path ts = .ok values) :
    values = ts.map asNumeric ∧ ∀ t ∈ ts, admitted t = true := by
  rw [tokenValues] at h
  split at h
  · cases h
  · next hnum =>
    split at h
    · cases h
    · next hrange =>
      obtain rfl := Except.ok.inj h
      refine ⟨rfl, fun t ht => Bool.and_eq_true_iff.mpr ⟨?_, ?_⟩⟩
      · simpa using List.find?_eq_none.mp hnum t ht
      · simpa using List.find?_eq_none.mp hrange t ht

theorem tokenValues_of_admitted {ts : List (List Char)} (h : ∀ t ∈ ts, admitted t = true)
    (sp : Locale) (path : String) : tokenValues sp path ts = .ok (ts.map asNumeric) := by
  have hnum : ts.find? (fun t => !isNumeral t) = none := by
    rw [List.find?_eq_none]
    intro t ht
    simpa using (Bool.and_eq_true_iff.mp (h t ht)).1
  have hrange : ts.find? (fun t => decide (zusatMaxVar < (asNumeric t).natAbs)) = none := by
    rw [List.find?_eq_none]
    intro t ht
    simpa using (Bool.and_eq_true_iff.mp (h t ht)).2
  rw [tokenValues, hnum]
  dsimp only
  rw [hrange]

theorem readDimacs_eq (sp : Locale) (path : String) (text : List Char) :
    readDimacs sp (.chr [some path]) (some text) =
      (tokenValues sp path (tokens sp text)).map (blocks 0) := by
  change readFormula sp path text = _
  rw [readFormula, formulaLines_readLines]
  dsimp only
  rw [filter_pieces]
  split
  · next hlines => rw [tokens, hlines, List.flatMap_nil, tokenValues_nil, Except.map, blocks]
  · split
    · next htokens => rw [htokens, tokenValues_nil, Except.map, blocks]
    · next htokens =>
      cases hvalues : tokenValues sp path (tokens sp text) with
      | error e => rfl
      | ok values =>
        have hne : values ≠ [] := by
          rw [(tokenValues_ok hvalues).1]
          simpa using htokens
        rw [Except.map, Except.map, cutClauses_eq hne]

end Dimacs
end Zusat
