import Zusat.Dimacs.Grammar
import Mathlib.Data.List.TakeWhile

/-! # Writing a formula and reading it back

Every line that is written starts with the character that says what it is: a comment with `c`, the
header with `p`, a clause with a sign or a digit. No comment can hold a line end, so none of its text
ever starts a line. -/

namespace Zusat
open Foundations Foundations.Prog
set_option autoImplicit false

namespace Dimacs

/-! ## Lines -/

/-- No character of the line ends it. -/
def unbroken (line : List Char) : Prop := '\n' ∉ line ∧ '\r' ∉ line

theorem splitLines_unbroken {line : List Char} (hline : unbroken line) (front rest : List Char) :
    splitLines false front (line ++ '\n' :: rest) = (front ++ line) :: splitLines false [] rest := by
  induction line generalizing front with
  | nil => simp [splitLines]
  | cons c line ih =>
    obtain ⟨hn, hr⟩ := hline
    simp only [List.mem_cons, not_or] at hn hr
    rw [List.cons_append, splitLines, if_neg (Ne.symm hn.1), if_neg (Ne.symm hr.1),
      ih ⟨hn.2, hr.2⟩, List.append_assoc, List.singleton_append]

/-- Lines without line ends are read back as they were written. -/
theorem readLines_writeLines {lines : List (List Char)} (h : ∀ line ∈ lines, unbroken line) :
    readLines (writeLines lines) = lines := by
  induction lines with
  | nil => rfl
  | cons line lines ih =>
    have hrest := ih fun l hl => h l (List.mem_cons_of_mem line hl)
    rw [readLines] at hrest ⊢
    rw [writeLines, List.flatMap_cons, List.append_assoc, List.singleton_append,
      splitLines_unbroken (h line (List.mem_cons_self ..)), List.nil_append]
    exact congrArg (line :: ·) hrest

theorem unbroken_splitLines {cr : Bool} {line : List Char} (hline : unbroken line)
    (cs : List Char) : ∀ piece ∈ splitLines cr line cs, unbroken piece := by
  have hnil : unbroken [] := by simp [unbroken]
  induction cs generalizing cr line with
  | nil =>
    intro piece hpiece
    rw [splitLines] at hpiece
    split at hpiece
    · cases hpiece
    · rwa [List.mem_singleton.mp hpiece]
  | cons c cs ih =>
    intro piece hpiece
    rw [splitLines] at hpiece
    split at hpiece
    · split at hpiece
      · exact ih hnil piece hpiece
      · rcases List.mem_cons.mp hpiece with rfl | hpiece
        · exact hline
        · exact ih hnil piece hpiece
    · next hn =>
      split at hpiece
      · rcases List.mem_cons.mp hpiece with rfl | hpiece
        · exact hline
        · exact ih hnil piece hpiece
      · next hr =>
        refine ih ⟨?_, ?_⟩ piece hpiece
        · simpa [hline.1] using Ne.symm hn
        · simpa [hline.2] using Ne.symm hr

theorem unbroken_commentPieces (comment : List String) :
    ∀ piece ∈ commentPieces comment, unbroken piece := by
  intro piece hpiece
  obtain ⟨text, -, hpiece⟩ := List.mem_flatMap.mp hpiece
  dsimp only at hpiece
  have hnil : unbroken [] := by simp [unbroken]
  split at hpiece
  · rwa [List.mem_singleton.mp hpiece]
  · exact unbroken_splitLines hnil _ piece hpiece

/-! ## Numbers -/

/-- The characters of printed numbers. -/
def isNumberChar (c : Char) : Bool := c == '-' || c.isDigit

theorem isNumberChar_decimal {z : ℤ} {c : Char} (h : c ∈ decimal z) : isNumberChar c = true := by
  have hdigit : ∀ {d : Char}, d ∈ Nat.toDigits 10 z.natAbs → isNumberChar d = true := by
    intro d hd
    rw [isNumberChar, Nat.isDigit_of_mem_toDigits (by decide) (by decide) hd, Bool.or_true]
  rw [decimal] at h
  split at h
  · rcases List.mem_cons.mp h with rfl | h
    · rfl
    · exact hdigit h
  · exact hdigit h

theorem decimal_ne_nil (z : ℤ) : decimal z ≠ [] := by
  rw [decimal]
  split
  · exact List.cons_ne_nil _ _
  · exact Nat.toDigits_ne_nil

theorem isDigit_graphic {c : Char} (h : c.isDigit = true) : 48 ≤ c.toNat ∧ c.toNat ≤ 57 := by
  rw [Char.isDigit, Bool.and_eq_true_iff] at h
  exact ⟨UInt32.le_iff_toNat_le.mp (of_decide_eq_true h.1),
    UInt32.le_iff_toNat_le.mp (of_decide_eq_true h.2)⟩

theorem isNumberChar_graphic {c : Char} (h : isNumberChar c = true) :
    45 ≤ c.toNat ∧ c.toNat ≤ 57 := by
  rw [isNumberChar, Bool.or_eq_true_iff] at h
  rcases h with h | h
  · rw [beq_iff_eq.mp h]
    decide
  · have := isDigit_graphic h
    omega

theorem unsigned_decimal (z : ℤ) : unsigned (decimal z) = Nat.toDigits 10 z.natAbs := by
  rw [decimal]
  split
  · rw [unsigned, if_pos (.inl rfl)]
  · cases hd : Nat.toDigits 10 z.natAbs with
    | nil => rfl
    | cons c cs =>
      have hc : c.isDigit = true :=
        Nat.isDigit_of_mem_toDigits (by decide) (by decide) (hd ▸ List.mem_cons_self ..)
      refine if_neg ?_
      rintro (rfl | rfl) <;> exact absurd hc (by decide)

theorem isNumeral_decimal (z : ℤ) : isNumeral (decimal z) = true := by
  rw [isNumeral, unsigned_decimal, Bool.and_eq_true_iff]
  refine ⟨by simp, List.all_eq_true.mpr fun c hc => ?_⟩
  exact Nat.isDigit_of_mem_toDigits (by decide) (by decide) hc

theorem asNumeric_decimal (z : ℤ) : asNumeric (decimal z) = z := by
  rw [asNumeric, unsigned_decimal, Nat.ofDigitChars_ten_toDigits, decimal]
  by_cases hz : z < 0
  · rw [if_pos hz, List.head?_cons, if_pos rfl]
    omega
  · rw [if_neg hz, if_neg ?_]
    · omega
    · intro hhead
      have hmem := List.mem_of_mem_head? (Option.mem_def.mpr hhead)
      exact absurd (Nat.isDigit_of_mem_toDigits (by decide) (by decide) hmem) (by decide)

/-! ## What a line is for -/

section Lines
variable (sp : Locale)

theorem startsWith_cons {c : Char} (hlo : 33 ≤ c.toNat) (hhi : c.toNat ≤ 126) (marks line : List Char) :
    startsWith sp marks (c :: line) = marks.contains c := by
  rw [startsWith, List.dropWhile_cons_of_neg (by simp [sp.graphic c hlo hhi])]

/-- A comment or a header is neither formula nor the end of it. -/
theorem startsWith_mark {c : Char} (hc : c = 'c' ∨ c = 'p') (line : List Char) :
    startsWith sp ['%'] (c :: line) = false ∧ startsWith sp ['c', 'p'] (c :: line) = true := by
  rcases hc with rfl | rfl
  · rw [startsWith_cons sp (by decide) (by decide), startsWith_cons sp (by decide) (by decide)]
    decide
  · rw [startsWith_cons sp (by decide) (by decide), startsWith_cons sp (by decide) (by decide)]
    decide

/-- A clause line starts with a character of a number. -/
theorem clauseLine_eq (cl : List ℤ) :
    ∃ c line, clauseLine cl = c :: line ∧ isNumberChar c = true := by
  have hfirst : ∀ (z : ℤ) (zs : List ℤ), ∃ c line,
      [' '].intercalate ((z :: zs).map decimal) = c :: line ∧ isNumberChar c = true := by
    intro z zs
    cases hz : decimal z with
    | nil => exact absurd hz (decimal_ne_nil z)
    | cons c line =>
      have hc : isNumberChar c = true := isNumberChar_decimal (hz ▸ List.mem_cons_self ..)
      cases zs with
      | nil => exact ⟨c, line, by simp [List.intercalate, hz], hc⟩
      | cons y ys =>
        rw [List.map_cons, List.map_cons, List.intercalate_cons_cons, hz]
        exact ⟨c, _, rfl, hc⟩
  cases cl with
  | nil => exact hfirst 0 []
  | cons z zs => exact hfirst z (zs ++ [0])

theorem startsWith_clauseLine (cl : List ℤ) :
    startsWith sp ['%'] (clauseLine cl) = false ∧
      startsWith sp ['c', 'p'] (clauseLine cl) = false := by
  obtain ⟨c, line, hline, hc⟩ := clauseLine_eq cl
  have hrange := isNumberChar_graphic hc
  rw [hline, startsWith_cons sp (by omega) (by omega), startsWith_cons sp (by omega) (by omega)]
  refine ⟨?_, ?_⟩
  · by_contra h
    obtain rfl : c = '%' := by simpa using h
    exact absurd hrange.1 (by decide)
  · by_contra h
    have hcp : c = 'c' ∨ c = 'p' := by simpa [or_iff_not_imp_left] using h
    rcases hcp with rfl | rfl <;> exact absurd hrange.2 (by decide)

theorem words_clauseLine (cl : List ℤ) :
    words sp.isSpace (clauseLine cl) = (cl ++ [0]).map decimal := by
  refine words_join (sp.standard ' ' (by simp)) fun w hw => ?_
  obtain ⟨z, -, rfl⟩ := List.mem_map.mp hw
  refine ⟨decimal_ne_nil z, fun c hc => ?_⟩
  have hrange := isNumberChar_graphic (isNumberChar_decimal hc)
  exact sp.graphic c (by omega) (by omega)

end Lines

/-- A character that ends no line. -/
theorem unbroken_of_chars {line : List Char} (h : ∀ c ∈ line, isNumberChar c = true ∨ c = ' ') :
    unbroken line := by
  refine ⟨fun hmem => ?_, fun hmem => ?_⟩
  · exact absurd (h _ hmem) (by decide)
  · exact absurd (h _ hmem) (by decide)

theorem mem_intercalate {α : Type} {s c : α} {ws : List (List α)} (h : c ∈ [s].intercalate ws) :
    c = s ∨ ∃ w ∈ ws, c ∈ w := by
  induction ws with
  | nil => cases h
  | cons w ws ih =>
    cases ws with
    | nil => exact .inr ⟨w, by simp, by simpa [List.intercalate] using h⟩
    | cons v ws =>
      rw [List.intercalate_cons_cons, List.append_assoc, List.singleton_append] at h
      rcases List.mem_append.mp h with h | h
      · exact .inr ⟨w, by simp, h⟩
      · rcases List.mem_cons.mp h with rfl | h
        · exact .inl rfl
        · rcases ih h with rfl | ⟨u, hu, hc⟩
          · exact .inl rfl
          · exact .inr ⟨u, List.mem_cons_of_mem w hu, hc⟩

theorem unbroken_clauseLine (cl : List ℤ) : unbroken (clauseLine cl) := by
  refine unbroken_of_chars fun c hc => ?_
  rcases mem_intercalate hc with rfl | ⟨w, hw, hc⟩
  · exact .inr rfl
  · obtain ⟨z, -, rfl⟩ := List.mem_map.mp hw
    exact .inl (isNumberChar_decimal hc)

theorem unbroken_append {xs ys : List Char} (hx : unbroken xs) (hy : unbroken ys) :
    unbroken (xs ++ ys) :=
  ⟨fun h => (List.mem_append.mp h).elim hx.1 hy.1, fun h => (List.mem_append.mp h).elim hx.2 hy.2⟩

theorem unbroken_headerLine (clauses : List (List ℤ)) : unbroken (headerLine clauses) := by
  have hdecimal : ∀ z, unbroken (decimal z) := fun z =>
    unbroken_of_chars fun c hc => .inl (isNumberChar_decimal hc)
  have hblank : unbroken [' '] := by simp [unbroken]
  have hstart : unbroken "p cnf ".toList := by simp [unbroken]
  exact unbroken_append (unbroken_append (unbroken_append hstart (hdecimal _)) hblank) (hdecimal _)

/-! ## The file as a whole -/

/-- The lines of a written file. -/
def writtenLines (comments : List (List Char)) (clauses : List (List ℤ)) : List (List Char) :=
  comments ++ headerLine clauses :: clauses.map clauseLine

section File
variable (sp : Locale) {comments : List (List Char)} (clauses : List (List ℤ))

theorem content_written (hcomments : ∀ line ∈ comments, ∃ rest, line = 'c' :: rest)
    (hunbroken : ∀ line ∈ comments, unbroken line) :
    readLines (writeLines (writtenLines comments clauses)) = writtenLines comments clauses ∧
      content sp (writeLines (writtenLines comments clauses)) = clauses.map clauseLine := by
  have hheader : ∃ rest, headerLine clauses = 'p' :: rest := ⟨_, rfl⟩
  have hlines : readLines (writeLines (writtenLines comments clauses)) =
      writtenLines comments clauses := by
    refine readLines_writeLines fun line hline => ?_
    rcases List.mem_append.mp hline with hline | hline
    · exact hunbroken line hline
    · rcases List.mem_cons.mp hline with rfl | hline
      · exact unbroken_headerLine clauses
      · obtain ⟨cl, -, rfl⟩ := List.mem_map.mp hline
        exact unbroken_clauseLine cl
  refine ⟨hlines, ?_⟩
  have hmarked : ∀ line ∈ comments ++ [headerLine clauses],
      startsWith sp ['%'] line = false ∧ startsWith sp ['c', 'p'] line = true := by
    intro line hline
    rcases List.mem_append.mp hline with hline | hline
    · obtain ⟨rest, rfl⟩ := hcomments line hline
      exact startsWith_mark sp (.inl rfl) rest
    · obtain ⟨rest, hrest⟩ := hheader
      rw [List.mem_singleton.mp hline, hrest]
      exact startsWith_mark sp (.inr rfl) rest
  have hsplit : writtenLines comments clauses =
      (comments ++ [headerLine clauses]) ++ clauses.map clauseLine := by
    rw [writtenLines, List.append_assoc, List.singleton_append]
  rw [content, hlines, hsplit, List.takeWhile_eq_self_iff.mpr, List.filter_append,
    List.filter_eq_nil_iff.mpr, List.nil_append, List.filter_eq_self.mpr]
  · intro line hline
    obtain ⟨cl, -, rfl⟩ := List.mem_map.mp hline
    rw [(startsWith_clauseLine sp cl).2]
    rfl
  · intro line hline
    rw [(hmarked line hline).2]
    simp
  · intro line hline
    rcases List.mem_append.mp hline with hline | hline
    · rw [(hmarked line hline).1]
      rfl
    · obtain ⟨cl, -, rfl⟩ := List.mem_map.mp hline
      rw [(startsWith_clauseLine sp cl).1]
      rfl

theorem tokens_written (hcomments : ∀ line ∈ comments, ∃ rest, line = 'c' :: rest)
    (hunbroken : ∀ line ∈ comments, unbroken line) :
    tokens sp (writeLines (writtenLines comments clauses)) =
      (terminated 0 clauses).map decimal := by
  rw [tokens, (content_written sp clauses hcomments hunbroken).2, List.flatMap_map, terminated,
    List.map_flatMap]
  exact List.flatMap_congr fun cl _ => words_clauseLine sp cl

end File

/-! ## What is written -/

/-- A vector that passes `as_literals` is `NULL` or those literals. -/
theorem eq_ints_of_asLiterals {arg : String} {v : RValue} {ls : List ℤ}
    (h : asLiterals arg v = .ok ls) (hnull : v ≠ .null) : v = .ints ls := by
  cases v with
  | null => exact absurd rfl hnull
  | num xs =>
    simp only [asLiterals] at h
    split_ifs at h with hna hfin hwhole hmax hzero
    obtain rfl := Except.ok.inj h
    have hsame : xs.map ((fun z : ℤ => RNum.fin (z : ℚ)) ∘ RNum.asInteger) = xs.map id := by
      refine List.map_congr_left fun x hx => ?_
      have hxf : x.isFinite = true := List.all_eq_true.mp (by simpa using hfin) x hx
      have hxw : x.isWhole = true := List.all_eq_true.mp (by simpa using hwhole) x hx
      exact (RNum.isWhole_iff hxf hxw).symm
    rw [RValue.ints, List.map_map, hsame, List.map_id]
  | _ => simp [asLiterals] at h

theorem eq_ints_of_mapM {arg : String} {xs : List RValue} {cls : List (List ℤ)}
    (hnull : ∀ v ∈ xs, v ≠ .null) (h : xs.mapM (asLiterals arg) = .ok cls) :
    xs = cls.map .ints := by
  induction xs generalizing cls with
  | nil =>
    rw [List.mapM_nil] at h
    obtain rfl : [] = cls := Except.ok.inj h
    rfl
  | cons v xs ih =>
    rw [List.mapM_cons] at h
    cases hv : asLiterals arg v with
    | error e =>
      rw [hv] at h
      cases h
    | ok ls =>
      cases hxs : xs.mapM (asLiterals arg) with
      | error e =>
        rw [hv, hxs] at h
        cases h
      | ok rest =>
        rw [hv, hxs] at h
        obtain rfl : ls :: rest = cls := Except.ok.inj h
        rw [List.map_cons, ← ih (fun w hw => hnull w (List.mem_cons_of_mem v hw)) hxs,
          ← eq_ints_of_asLiterals hv (hnull v (List.mem_cons_self ..))]

/-- A list that passes `as_clauses` is those clauses. -/
theorem eq_ints_of_asClauses {arg : String} {xs : List RValue} {cls : List (List ℤ)}
    (h : asClauses arg xs = .ok cls) : xs = cls.map .ints := by
  rw [asClauses] at h
  split at h
  · cases h
  · next hnull =>
    rw [firstNull, Option.map_eq_none_iff, List.findIdx?_eq_none_iff] at hnull
    exact eq_ints_of_mapM (fun v hv => by simpa using hnull v hv) h

/-- What an accepted call of `write_dimacs` has checked, and what it writes. -/
theorem writeDimacs_ok {x : RArg} {path comment : RValue} {text : List Char}
    (h : writeDimacs x path comment = .ok text) :
    ∃ (clauses : List (List ℤ)) (p : String) (pieces : List (List Char)), x = .list (clauses.map .ints) ∧ path = .chr [some p] ∧
      (∀ cl ∈ clauses, ∀ l ∈ cl, ValidLit l) ∧ (∀ piece ∈ pieces, unbroken piece) ∧
      text = writeLines (writtenLines (pieces.map ("c ".toList ++ ·)) clauses) := by
  obtain ⟨xs, hx, h⟩ := except_bind_ok.mp h
  obtain ⟨p, hp, h⟩ := except_bind_ok.mp h
  obtain ⟨cm, hcm, h⟩ := except_bind_ok.mp h
  obtain ⟨clauses, hcls, h⟩ := except_bind_ok.mp h
  have hxs : x = .list xs := by
    cases x with
    | list ys => exact congrArg RArg.list (Except.ok.inj hx)
    | _ => cases hx
  have hpath : path = .chr [some p] := by
    rw [checkPath.eq_def] at hp
    split at hp
    · rw [Except.ok.inj hp]
    · cases hp
  refine ⟨clauses, p, commentPieces cm, ?_, hpath, asClauses_valid hcls, unbroken_commentPieces cm,
    (Except.ok.inj h).symm⟩
  rw [hxs, eq_ints_of_asClauses hcls]

theorem largestVar_spec (clauses : List (List ℤ)) :
    (∀ cl ∈ clauses, ∀ l ∈ cl, l.natAbs ≤ largestVar clauses) ∧
      (largestVar clauses = 0 ∨ ∃ cl ∈ clauses, ∃ l ∈ cl, l.natAbs = largestVar clauses) := by
  induction clauses with
  | nil => exact ⟨by simp, .inl rfl⟩
  | cons cl clauses ih =>
    have hcons : largestVar (cl :: clauses) = max (topVar cl) (largestVar clauses) := rfl
    rw [hcons]
    refine ⟨fun c hc l hl => ?_, ?_⟩
    · rcases List.mem_cons.mp hc with rfl | hc
      · exact le_max_of_le_left (natAbs_le_topVar hl)
      · exact le_max_of_le_right (ih.1 c hc l hl)
    · rcases le_total (largestVar clauses) (topVar cl) with hle | hle
      · rw [max_eq_left hle]
        rcases topVar_attained cl with h0 | ⟨l, hl, htop⟩
        · exact .inl h0
        · exact .inr ⟨cl, List.mem_cons_self .., l, hl, htop⟩
      · rw [max_eq_right hle]
        rcases ih.2 with h0 | ⟨c, hc, l, hl, htop⟩
        · exact .inl h0
        · exact .inr ⟨c, List.mem_cons_of_mem cl hc, l, hl, htop⟩

/-- What `write_dimacs` writes, `read_dimacs` reads back clause for clause, whatever the comments; and
the file has its comment lines, one header and one line for each clause, nothing else. -/
theorem dimacs_round_trip (sp : Locale) (x : RArg) (path comment : RValue) (text : List Char)
    (h : writeDimacs x path comment = .ok text) :
    ∃ clauses, x = .list (clauses.map .ints) ∧ readDimacs sp path (some text) = .ok clauses ∧
      ∃ comments header,
        text = writeLines (comments ++ header :: clauses.map clauseLine) ∧
        readLines text = comments ++ header :: clauses.map clauseLine ∧
        (∀ line ∈ comments, line.head? = some 'c') ∧
        ∃ top : ℕ, header = "p cnf ".toList ++ decimal top ++ [' '] ++ decimal clauses.length ∧
          (∀ cl ∈ clauses, ∀ l ∈ cl, l.natAbs ≤ top) ∧
          (top = 0 ∨ ∃ cl ∈ clauses, ∃ l ∈ cl, l.natAbs = top) := by
  obtain ⟨clauses, p, pieces, hx, hpath, hvalid, hpieces, htext⟩ := writeDimacs_ok h
  have hmark : ∀ line ∈ pieces.map ("c ".toList ++ ·), ∃ rest, line = 'c' :: rest := by
    intro line hline
    obtain ⟨piece, -, rfl⟩ := List.mem_map.mp hline
    exact ⟨' ' :: piece, rfl⟩
  have hunbroken : ∀ line ∈ pieces.map ("c ".toList ++ ·), unbroken line := by
    intro line hline
    obtain ⟨piece, hpiece, rfl⟩ := List.mem_map.mp hline
    exact unbroken_append (by simp [unbroken]) (hpieces piece hpiece)
  have htokens := tokens_written sp clauses hmark hunbroken
  rw [← htext] at htokens
  have hnumbers : (tokens sp text).map asNumeric = terminated 0 clauses := by
    rw [htokens, List.map_map]
    exact List.map_id'' asNumeric_decimal _
  have hadmitted : ∀ t ∈ tokens sp text, admitted t = true := by
    intro t ht
    rw [htokens] at ht
    obtain ⟨z, hz, rfl⟩ := List.mem_map.mp ht
    rw [admitted, isNumeral_decimal, asNumeric_decimal, Bool.true_and, decide_eq_true_eq]
    obtain ⟨cl, hcl, hz⟩ := List.mem_flatMap.mp hz
    rcases List.mem_append.mp hz with hz | hz
    · exact (hvalid cl hcl z hz).2
    · rw [List.mem_singleton.mp hz]
      exact Nat.zero_le _
  have hread : readDimacs sp path (some text) = .ok clauses := by
    rw [hpath, readDimacs_of_admitted hadmitted, hnumbers, blocks_terminated]
    exact fun cl hcl h0 => (hvalid cl hcl 0 h0).1 rfl
  have hlines := (content_written sp clauses hmark hunbroken).1
  rw [← htext] at hlines
  refine ⟨clauses, hx, hread, _, headerLine clauses, htext, hlines, fun line hline => ?_,
    largestVar clauses, rfl, largestVar_spec clauses⟩
  obtain ⟨rest, rfl⟩ := hmark line hline
  rfl

/-- A clause, an empty clause, and a comment that would be a clause on a line of its own. -/
def injected : List Char := "c note\nc 1 0\np cnf 2 2\n1 -2 0\n0\n".toList

theorem dimacs_round_trip_injected :
    writeDimacs (.list [.ints [1, -2], .ints []]) (.chr [some "f.cnf"]) (.chr [some "note\n1 0"]) =
        .ok injected ∧
      ∃ clauses, RArg.list [.ints [1, -2], .ints []] = .list (clauses.map .ints) ∧
        readDimacs asciiLocale (.chr [some "f.cnf"]) (some injected) = .ok clauses := by
  have hwrite : writeDimacs (.list [.ints [1, -2], .ints []]) (.chr [some "f.cnf"])
      (.chr [some "note\n1 0"]) = .ok injected := by decide +kernel
  obtain ⟨clauses, hx, hread, -⟩ := dimacs_round_trip asciiLocale _ _ _ _ hwrite
  exact ⟨hwrite, clauses, hx, hread⟩

end Dimacs
end Zusat
