import Zusat.Drat.Tracer
import Zusat.Dimacs.Grammar

/-! # Proofs are read back as they were traced

Both readers of `helper-drat.R` find in a file the steps the tracer was called with. A stream that translates
line ends leaves a proof in text form as it is; one in binary form is still read without complaint, but with
one literal more for every byte it has changed. -/

namespace Zusat
open Foundations
set_option autoImplicit false

namespace DratHelper

/-! ## The binary form -/

section Binary

/-- A step as its kind and the bytes of its literals. -/
def encoded (e : StepKind × List (List UInt8)) : List UInt8 := e.1.marker :: e.2.flatten ++ [0]

def decodedStep (e : StepKind × List (List UInt8)) : ProofStep (Option ℤ) :=
  ⟨e.1, e.2.map fun g => decodeLiteral (Varint.value g)⟩

theorem decodeLits_groups {groups : List (List UInt8)} (h : ∀ g ∈ groups, Varint.Group g) {fuel : ℕ}
    (hfuel : groups.length < fuel) (rest : List UInt8) (lits : List (Option ℤ)) :
    decodeLits fuel (groups.flatten ++ 0 :: rest) lits =
      .ok (lits ++ groups.map fun g => decodeLiteral (Varint.value g), rest) := by
  induction groups generalizing fuel lits with
  | nil =>
    cases fuel with
    | zero => cases hfuel
    | succ fuel => simp [decodeLits]
  | cons g groups ih =>
    cases fuel with
    | zero => cases hfuel
    | succ fuel =>
      have hg := h g List.mem_cons_self
      have hread := Varint.read_group hg (groups.flatten ++ 0 :: rest)
      obtain ⟨b, bs, rfl, hb⟩ := hg.head
      rw [List.cons_append] at hread
      rw [List.flatten_cons, List.append_assoc, List.cons_append, decodeLits, if_neg hb, hread]
      simp only
      rw [ih (fun g' hg' => h g' (List.mem_cons_of_mem _ hg')) (Nat.lt_of_succ_lt_succ hfuel), List.append_assoc]
      rfl

theorem length_le_flatten {groups : List (List UInt8)} (h : ∀ g ∈ groups, Varint.Group g) :
    groups.length ≤ groups.flatten.length := by
  induction groups with
  | nil => exact Nat.le_refl 0
  | cons g groups ih =>
    obtain ⟨b, bs, rfl, -⟩ := (h g List.mem_cons_self).head
    have hrest := ih fun g' hg' => h g' (List.mem_cons_of_mem _ hg')
    simp only [List.length_cons, List.flatten_cons, List.length_append]
    omega

theorem decodeSteps_encoded (n : ℕ) {es : List (StepKind × List (List UInt8))}
    (h : ∀ e ∈ es, ∀ g ∈ e.2, Varint.Group g) {fuel : ℕ} (hfuel : es.length ≤ fuel)
    (steps : List (ProofStep (Option ℤ))) :
    decodeSteps n fuel (es.flatMap encoded) steps = .ok (steps ++ es.map decodedStep) := by
  induction es generalizing fuel steps with
  | nil => simp [decodeSteps]
  | cons e es ih =>
    cases fuel with
    | zero => cases hfuel
    | succ fuel =>
      have he := h e List.mem_cons_self
      have hbytes : (e :: es).flatMap encoded =
          e.1.marker :: (e.2.flatten ++ 0 :: es.flatMap encoded) := by simp [encoded]
      have hmarker : ¬(e.1.marker ≠ 0x61 ∧ e.1.marker ≠ 0x64) := by cases e.1 <;> decide
      have hkind : (if e.1.marker = 0x61 then StepKind.a else .d) = e.1 := by cases e.1 <;> rfl
      have hlen := length_le_flatten he
      have hfew : e.2.length < (e.2.flatten ++ 0 :: es.flatMap encoded).length + 1 := by
        rw [List.length_append]
        omega
      have hlits := decodeLits_groups he hfew (es.flatMap encoded) []
      rw [hbytes, decodeSteps, if_neg hmarker, hlits]
      simp only [bind, Except.bind]
      rw [hkind, ih (fun e' he' => h e' (List.mem_cons_of_mem _ he')) (Nat.le_of_succ_le_succ hfuel),
        List.append_assoc]
      rfl

/-- Every stream of such steps is accepted. -/
theorem decodeBinaryDrat_encoded {es : List (StepKind × List (List UInt8))}
    (h : ∀ e ∈ es, ∀ g ∈ e.2, Varint.Group g) :
    decodeBinaryDrat (es.flatMap encoded) = .ok (es.map decodedStep) := by
  have hlen : es.length ≤ (es.flatMap encoded).length := by
    clear h
    induction es with
    | nil => exact Nat.le_refl 0
    | cons e es ih =>
      simp only [List.length_cons, List.flatMap_cons, List.length_append, encoded]
      omega
  rw [decodeBinaryDrat, decodeSteps_encoded _ h hlen, List.nil_append]

/-- The bytes of the literals of a traced step. -/
def groupsOf (s : ProofStep ℤ) : StepKind × List (List UInt8) :=
  (s.kind, s.literals.map fun lit => Varint.bytes (literalCode lit))

theorem binaryStep_eq (s : ProofStep ℤ) : binaryStep s = encoded (groupsOf s) := by
  rw [binaryStep, encoded, groupsOf, List.flatMap_def]

theorem group_literal {lit : ℤ} (h : Writable lit) : Varint.Group (Varint.bytes (literalCode lit)) := by
  obtain ⟨hne, -⟩ := h
  exact Varint.group_bytes (by rw [literalCode]; omega)

theorem group_groupsOf {s : ProofStep ℤ} (h : ∀ lit ∈ s.literals, Writable lit) :
    ∀ g ∈ (groupsOf s).2, Varint.Group g := by
  intro g hg
  obtain ⟨lit, hlit, rfl⟩ := List.mem_map.mp hg
  exact group_literal (h lit hlit)

theorem decodeLiteral_code {lit : ℤ} (h : Writable lit) :
    decodeLiteral (Varint.value (Varint.bytes (literalCode lit))) = some lit := by
  obtain ⟨hne, hlt⟩ := h
  rw [Varint.value_bytes, decodeLiteral, literalCode]
  by_cases hneg : lit < 0
  · rw [if_pos hneg, if_pos (by omega), if_pos (by omega)]
    exact congrArg some (by omega)
  · rw [if_neg hneg, if_pos (by omega), if_neg (by omega)]
    exact congrArg some (by omega)

/-- A traced step as the readers show it. -/
def shown (s : ProofStep ℤ) : ProofStep (Option ℤ) := ⟨s.kind, s.literals.map some⟩

theorem decodedStep_groupsOf {s : ProofStep ℤ} (h : ∀ lit ∈ s.literals, Writable lit) :
    decodedStep (groupsOf s) = shown s := by
  rw [decodedStep, groupsOf, shown, List.map_map]
  exact congrArg _ (List.map_congr_left fun lit hlit => decodeLiteral_code (h lit hlit))

theorem flatMap_stepBytes_true (steps : List (ProofStep ℤ)) :
    steps.flatMap (stepBytes true) = (steps.map groupsOf).flatMap encoded := by
  rw [List.flatMap_map]
  exact List.flatMap_congr fun s _ => binaryStep_eq s

end Binary

/-! ## Translated line ends -/

section Translation

def translated (b : UInt8) : List UInt8 := if b = 0x0a then [0x0d, 0x0a] else [b]

theorem simulate_eq (bytes : List UInt8) : simulateCrlfTranslation bytes = bytes.flatMap translated := by
  have hfold : ∀ out, bytes.foldl (fun out b => out ++ (if b = 0x0a then [0x0d, 0x0a] else [b])) out =
      out ++ bytes.flatMap translated := by
    induction bytes with
    | nil => simp
    | cons b bs ih =>
      intro out
      rw [List.foldl_cons, ih, List.append_assoc]
      rfl
  exact (hfold []).trans (List.nil_append _)

theorem translated_of_not_mem {bytes : List UInt8} (h : (0x0a : UInt8) ∉ bytes) :
    bytes.flatMap translated = bytes := by
  induction bytes with
  | nil => rfl
  | cons b bs ih =>
    simp only [List.mem_cons, not_or] at h
    rw [List.flatMap_cons, ih h.2, translated, if_neg (Ne.symm h.1)]
    rfl

/-- The groups a reader finds where one group has been translated: the changed byte ends one literal, and
the old one is a literal of its own. -/
def split (g : List UInt8) : List (List UInt8) :=
  if g.getLast? = some 0x0a then [g.dropLast ++ [0x0d], [0x0a]] else [g]

theorem translated_group {g : List UInt8} (h : Varint.Group g) :
    g.flatMap translated = (split g).flatten ∧ (∀ g' ∈ split g, Varint.Group g') ∧
      (split g).length = 1 + g.count 0x0a := by
  obtain ⟨front, last, rfl, hended, hne⟩ := h
  have hfront : (0x0a : UInt8) ∉ front := fun hmem => absurd (hended.marked _ hmem) (by decide)
  rw [List.flatMap_append, translated_of_not_mem hfront, List.flatMap_singleton, List.count_append,
    List.count_eq_zero_of_not_mem hfront, split, List.getLast?_concat, List.dropLast_concat]
  by_cases hlast : last = 0x0a
  · rw [hlast, if_pos rfl]
    refine ⟨by simp [translated], ?_, by simp⟩
    intro g' hg'
    simp only [List.mem_cons, List.not_mem_nil, or_false] at hg'
    cases hg' with
    | inl hg' => exact ⟨front, 0x0d, hg', ⟨hended.marked, by decide⟩, fun _ => by decide⟩
    | inr hg' => exact ⟨[], 0x0a, hg', ⟨by simp, by decide⟩, fun _ => by decide⟩
  · have hsome : some last ≠ some (0x0a : UInt8) := fun heq => hlast (Option.some.inj heq)
    rw [if_neg hsome]
    refine ⟨by simp [translated, hlast], ?_, by simp [hlast]⟩
    intro g' hg'
    rw [List.mem_singleton.mp hg']
    exact ⟨front, last, rfl, hended, hne⟩

theorem translated_groups {groups : List (List UInt8)} (h : ∀ g ∈ groups, Varint.Group g) :
    groups.flatten.flatMap translated = (groups.flatMap split).flatten ∧
      (∀ g ∈ groups.flatMap split, Varint.Group g) ∧
      (groups.flatMap split).length = groups.length + groups.flatten.count 0x0a := by
  induction groups with
  | nil => simp
  | cons g groups ih =>
    obtain ⟨hflat, hgroup, hlen⟩ := translated_group (h g List.mem_cons_self)
    obtain ⟨hflats, hgroups, hlens⟩ := ih fun g' hg' => h g' (List.mem_cons_of_mem _ hg')
    refine ⟨?_, ?_, ?_⟩
    · rw [List.flatten_cons, List.flatMap_append, hflat, hflats, List.flatMap_cons, List.flatten_append]
    · intro g' hg'
      rw [List.flatMap_cons] at hg'
      exact (List.mem_append.mp hg').elim (hgroup g') (hgroups g')
    · rw [List.flatMap_cons, List.length_append, hlen, hlens, List.flatten_cons, List.count_append,
        List.length_cons]
      omega

/-- The step a reader finds where a step has been translated. -/
def splitStep (e : StepKind × List (List UInt8)) : StepKind × List (List UInt8) := (e.1, e.2.flatMap split)

theorem translated_encoded {e : StepKind × List (List UInt8)} (h : ∀ g ∈ e.2, Varint.Group g) :
    (encoded e).flatMap translated = encoded (splitStep e) ∧ (∀ g ∈ (splitStep e).2, Varint.Group g) ∧
      (splitStep e).2.length = e.2.length + (encoded e).count 0x0a := by
  obtain ⟨hflat, hgroups, hlen⟩ := translated_groups h
  have hmarker : e.1.marker ≠ 0x0a := by cases e.1 <;> decide
  refine ⟨?_, hgroups, ?_⟩
  · rw [encoded, List.cons_append, List.flatMap_cons, List.flatMap_append, hflat, translated, if_neg hmarker]
    rfl
  · rw [splitStep, hlen, encoded, List.cons_append, List.count_cons_of_ne hmarker, List.count_append]
    rfl

/-- The number of literals in a proof. -/
def literalCount {α : Type} (steps : List (ProofStep α)) : ℕ := (steps.map fun s => s.literals.length).sum

theorem translated_steps {es : List (StepKind × List (List UInt8))}
    (h : ∀ e ∈ es, ∀ g ∈ e.2, Varint.Group g) :
    (es.flatMap encoded).flatMap translated = (es.map splitStep).flatMap encoded ∧
      (∀ e ∈ es.map splitStep, ∀ g ∈ e.2, Varint.Group g) ∧
      literalCount ((es.map splitStep).map decodedStep) =
        literalCount (es.map decodedStep) + (es.flatMap encoded).count 0x0a := by
  induction es with
  | nil => simp [literalCount]
  | cons e es ih =>
    obtain ⟨hstep, hgroup, hlen⟩ := translated_encoded (h e List.mem_cons_self)
    obtain ⟨hsteps, hgroups, hlens⟩ := ih fun e' he' => h e' (List.mem_cons_of_mem _ he')
    refine ⟨?_, ?_, ?_⟩
    · rw [List.flatMap_cons, List.flatMap_append, hstep, hsteps]
      rfl
    · intro e' he'
      cases he' with
      | head => exact hgroup
      | tail _ he' => exact hgroups e' he'
    · rw [literalCount] at hlens ⊢
      simp only [List.map_cons, List.sum_cons, hlens, List.flatMap_cons, List.count_append, decodedStep,
        List.length_map, hlen, literalCount]
      omega

end Translation

/-! ## The text form -/

section Text
variable (sp : Locale) (ic : IntegerClass)

theorem strsplitSpace_word {w : List Char} (hw : ∀ c ∈ w, sp.isSpace c = false) (inRun : Bool)
    (piece cs : List Char) (hrun : inRun = true → w ≠ []) :
    Dimacs.strsplitSpace sp inRun piece (w ++ cs) = Dimacs.strsplitSpace sp false (piece ++ w) cs := by
  induction w generalizing piece inRun with
  | nil =>
    cases inRun with
    | false => simp
    | true => exact absurd rfl (hrun rfl)
  | cons c w ih =>
    have hc : sp.isSpace c = false := hw c List.mem_cons_self
    rw [List.cons_append, Dimacs.strsplitSpace, if_neg (by rw [hc]; exact Bool.false_ne_true),
      ih (fun x hx => hw x (List.mem_cons_of_mem c hx)) _ _ (by simp), List.append_assoc]
    rfl

/-- Words with a blank between them are the pieces of the split. -/
theorem strsplitSpace_intercalate {ws : List (List Char)} (inRun : Bool)
    (hws : ∀ w ∈ ws, w ≠ [] ∧ ∀ c ∈ w, sp.isSpace c = false) :
    Dimacs.strsplitSpace sp inRun [] ([' '].intercalate ws) = ws := by
  induction ws generalizing inRun with
  | nil => simp [List.intercalate, Dimacs.strsplitSpace]
  | cons w ws ih =>
    obtain ⟨hne, hw⟩ := hws w List.mem_cons_self
    have hrest := ih true fun v hv => hws v (List.mem_cons_of_mem w hv)
    cases ws with
    | nil =>
      have hword := strsplitSpace_word sp hw inRun [] [] fun _ => hne
      rw [List.append_nil, List.nil_append] at hword
      rw [List.intercalate_singleton, hword, Dimacs.strsplitSpace, if_neg hne]
    | cons v ws =>
      rw [List.intercalate_cons_cons, List.append_assoc, strsplitSpace_word sp hw _ _ _ fun _ => hne,
        List.nil_append, List.singleton_append, Dimacs.strsplitSpace, if_pos (sp.standard ' ' (by simp)),
        if_neg Bool.false_ne_true, hrest]

/-- The characters of a step in text form. -/
def isStepChar (c : Char) : Bool := Dimacs.isNumberChar c || c == 'd'

theorem isStepChar_graphic {c : Char} (h : isStepChar c = true) : 45 ≤ c.toNat ∧ c.toNat ≤ 100 := by
  rw [isStepChar, Bool.or_eq_true_iff] at h
  cases h with
  | inl h =>
    have := Dimacs.isNumberChar_graphic h
    omega
  | inr h =>
    rw [beq_iff_eq.mp h]
    decide

theorem stepTokens_chars (s : ProofStep ℤ) {w : List Char} (hw : w ∈ stepTokens s) :
    w ≠ [] ∧ ∀ c ∈ w, isStepChar c = true := by
  rw [stepTokens] at hw
  rcases List.mem_append.mp hw with hw | hw
  · split at hw
    · rw [List.mem_singleton.mp hw]
      simp [isStepChar]
    · cases hw
  · obtain ⟨z, -, rfl⟩ := List.mem_map.mp hw
    refine ⟨Dimacs.decimal_ne_nil z, fun c hc => ?_⟩
    rw [isStepChar, Dimacs.isNumberChar_decimal hc, Bool.true_or]

def stepLine (s : ProofStep ℤ) : List Char := [' '].intercalate (stepTokens s)

theorem stepLine_chars (s : ProofStep ℤ) : ∀ c ∈ stepLine s, isStepChar c = true ∨ c = ' ' := by
  intro c hc
  rcases Dimacs.mem_intercalate hc with rfl | ⟨w, hw, hc⟩
  · exact .inr rfl
  · exact .inl ((stepTokens_chars s hw).2 c hc)

theorem unbroken_stepLine (s : ProofStep ℤ) : Dimacs.unbroken (stepLine s) := by
  refine ⟨fun h => ?_, fun h => ?_⟩
  · exact absurd (stepLine_chars s _ h) (by decide)
  · exact absurd (stepLine_chars s _ h) (by decide)

theorem dropWhile_of_head {p : Char → Bool} {xs : List Char} (h : ∀ c, xs.head? = some c → p c = false) :
    xs.dropWhile p = xs := by
  cases xs with
  | nil => rfl
  | cons x xs => rw [List.dropWhile_cons_of_neg (by simp [h x rfl])]

/-- A line starts with a character of a token and ends in a zero. -/
theorem trimws_stepLine (s : ProofStep ℤ) : trimws (stepLine s) = stepLine s ∧ stepLine s ≠ [] := by
  have hblank : ∀ c, isStepChar c = true → [' ', '\t', '\r', '\n'].contains c = false := by
    intro c hc
    by_contra hmem
    have hcases : c = ' ' ∨ c = '\t' ∨ c = '\r' ∨ c = '\n' := by
      simpa [or_iff_not_imp_left] using hmem
    rcases hcases with rfl | rfl | rfl | rfl <;> exact absurd hc (by decide)
  have htokens : stepTokens s ≠ [] := by simp [stepTokens]
  have hhead : ∀ c, (stepLine s).head? = some c → isStepChar c = true := by
    intro c hc
    obtain ⟨w, ws, hw⟩ := List.exists_cons_of_ne_nil htokens
    obtain ⟨hne, hchars⟩ := stepTokens_chars s (hw ▸ List.mem_cons_self : w ∈ stepTokens s)
    obtain ⟨x, xs, rfl⟩ := List.exists_cons_of_ne_nil hne
    have hx : c = x := by
      cases ws with
      | nil => simpa [stepLine, hw, eq_comm] using hc
      | cons v ws => simpa [stepLine, hw, List.intercalate_cons_cons, eq_comm] using hc
    rw [hx]
    exact hchars x List.mem_cons_self
  have hlast : ∃ front, stepLine s = front ++ ['0'] := by
    have hline := DratTracer.textStep_eq s
    have hend : "0\n".toList = ['0'] ++ ['\n'] := rfl
    rw [textStep, hend, ← List.append_assoc] at hline
    exact ⟨_, List.append_cancel_right hline⟩
  obtain ⟨front, hfront⟩ := hlast
  refine ⟨?_, by rw [hfront]; simp⟩
  rw [trimws, dropWhile_of_head fun c hc => hblank c (hhead c hc), dropWhile_of_head, List.reverse_reverse]
  intro c hc
  rw [hfront, List.reverse_append, List.reverse_singleton, List.singleton_append, List.head?_cons] at hc
  rw [← Option.some.inj hc]
  decide

/-- The step of a line. -/
theorem parseLine_stepLine {s : ProofStep ℤ} (h : ∀ lit ∈ s.literals, Writable lit) :
    parseLine sp ic (stepLine s) = shown s := by
  have hsplit : Dimacs.strsplitSpace sp false [] (stepLine s) = stepTokens s := by
    refine strsplitSpace_intercalate sp false fun w hw => ?_
    obtain ⟨hne, hchars⟩ := stepTokens_chars s hw
    refine ⟨hne, fun c hc => ?_⟩
    have hrange := isStepChar_graphic (hchars c hc)
    exact sp.graphic c (by omega) (by omega)
  have hnumber : ∀ z : ℤ, z.natAbs < 2 ^ 31 → ic.asInteger (Dimacs.decimal z) = some z := by
    intro z hz
    have heq := ic.numeral _ (Dimacs.isNumeral_decimal z) (by rw [Dimacs.asNumeric_decimal]; exact hz)
    rw [heq, Dimacs.asNumeric_decimal]
  have hvalues : (((s.literals ++ [0]).map Dimacs.decimal).map ic.asInteger).filter (· ≠ some 0) =
      s.literals.map some := by
    rw [List.map_append, List.map_append, List.filter_append, List.map_map]
    have hmap : s.literals.map (ic.asInteger ∘ Dimacs.decimal) = s.literals.map some :=
      List.map_congr_left fun lit hlit => hnumber lit (h lit hlit).2
    have hkeep : (s.literals.map some).filter (· ≠ some (0 : ℤ)) = s.literals.map some := by
      refine List.filter_eq_self.mpr fun v hv => ?_
      obtain ⟨lit, hlit, rfl⟩ := List.mem_map.mp hv
      simpa using (h lit hlit).1
    rw [hmap, hkeep]
    simp [hnumber 0 (by decide)]
  have hfirst : (((s.literals ++ [0]).map Dimacs.decimal).head? = some ['d']) ↔ False := by
    refine iff_false_intro fun hd => ?_
    obtain ⟨z, -, hz⟩ := List.mem_map.mp (List.mem_of_mem_head? (Option.mem_def.mpr hd))
    have hnum := Dimacs.isNumberChar_decimal (z := z) (c := 'd') (by rw [hz]; simp)
    exact absurd hnum (by decide)
  obtain ⟨kind, literals⟩ := s
  unfold parseLine
  cases kind with
  | a =>
    have htokens : stepTokens ⟨.a, literals⟩ = (literals ++ [0]).map Dimacs.decimal := rfl
    simp only [hsplit, htokens, hfirst, if_false, reduceCtorEq]
    rw [hvalues]
    rfl
  | d =>
    have htokens : stepTokens ⟨.d, literals⟩ = ['d'] :: (literals ++ [0]).map Dimacs.decimal := rfl
    simp only [hsplit, htokens, List.head?_cons, if_true, List.tail_cons]
    rw [hvalues]
    rfl

theorem chars_byteOf {cs : List Char} (h : ∀ c ∈ cs, c.toNat < 256) :
    (cs.map ProofFile.byteOf).map (fun b => Char.ofNat b.toNat) = cs := by
  induction cs with
  | nil => rfl
  | cons c cs ih =>
    have hc := h c List.mem_cons_self
    rw [List.map_cons, List.map_cons, ih fun x hx => h x (List.mem_cons_of_mem c hx), ProofFile.byteOf,
      UInt8.toNat_ofNat', Nat.mod_eq_of_lt hc, Char.ofNat_toNat]

theorem flatMap_stepBytes_false (steps : List (ProofStep ℤ)) :
    steps.flatMap (stepBytes false) = (Dimacs.writeLines (steps.map stepLine)).map ProofFile.byteOf := by
  rw [Dimacs.writeLines, List.flatMap_map, List.map_flatMap]
  rfl

theorem chars_writeLines (steps : List (ProofStep ℤ)) :
    ∀ c ∈ Dimacs.writeLines (steps.map stepLine), c.toNat < 256 := by
  intro c hc
  obtain ⟨line, hline, hc⟩ := List.mem_flatMap.mp hc
  obtain ⟨s, -, rfl⟩ := List.mem_map.mp hline
  rcases List.mem_append.mp hc with hc | hc
  · rcases stepLine_chars s c hc with hc | rfl
    · have := isStepChar_graphic hc
      omega
    · decide
  · rw [List.mem_singleton.mp hc]
    decide

/-- Lines that are steps are parsed to these steps. -/
theorem parse_lines {steps : List (ProofStep ℤ)} (h : ∀ s ∈ steps, ∀ lit ∈ s.literals, Writable lit)
    {bytes : List UInt8}
    (hlines : Dimacs.readLines (bytes.map fun b => Char.ofNat b.toNat) = steps.map stepLine) :
    parseTextDrat sp ic bytes = steps.map shown := by
  have htrim : (steps.map stepLine).map trimws = steps.map stepLine := by
    rw [List.map_map]
    exact List.map_congr_left fun s _ => (trimws_stepLine s).1
  have hkeep : (steps.map stepLine).filter (fun line => !line.isEmpty) = steps.map stepLine := by
    refine List.filter_eq_self.mpr fun line hline => ?_
    obtain ⟨s, -, rfl⟩ := List.mem_map.mp hline
    simpa using (trimws_stepLine s).2
  unfold parseTextDrat
  simp only [hlines, htrim, hkeep, List.map_map]
  exact List.map_congr_left fun s hs => parseLine_stepLine sp ic (h s hs)

theorem parseTextDrat_steps {steps : List (ProofStep ℤ)}
    (h : ∀ s ∈ steps, ∀ lit ∈ s.literals, Writable lit) :
    parseTextDrat sp ic (steps.flatMap (stepBytes false)) = steps.map shown := by
  refine parse_lines sp ic h ?_
  rw [flatMap_stepBytes_false, chars_byteOf (chars_writeLines steps), Dimacs.readLines_writeLines]
  intro line hline
  obtain ⟨s, -, rfl⟩ := List.mem_map.mp hline
  exact unbroken_stepLine s

/-! ## Translated text -/

def translatedChar (c : Char) : List Char := if c = '\n' then ['\r', '\n'] else [c]

theorem translated_byteOf {cs : List Char} (h : ∀ c ∈ cs, c.toNat < 256) :
    (cs.map ProofFile.byteOf).flatMap translated = (cs.flatMap translatedChar).map ProofFile.byteOf := by
  have hone : ∀ c : Char, c.toNat < 256 →
      translated (ProofFile.byteOf c) = (translatedChar c).map ProofFile.byteOf := by
    intro c hc
    by_cases hnl : c = '\n'
    · rw [hnl]
      decide
    · have hne : ProofFile.byteOf c ≠ 0x0a := by
        intro heq
        have hnat := congrArg UInt8.toNat heq
        rw [ProofFile.byteOf, UInt8.toNat_ofNat', Nat.mod_eq_of_lt hc] at hnat
        apply hnl
        rw [← Char.ofNat_toNat c, hnat]
        rfl
      rw [translated, if_neg hne, translatedChar, if_neg hnl]
      rfl
  rw [List.flatMap_map, List.map_flatMap]
  exact List.flatMap_congr fun c hc => hone c (h c hc)

theorem translatedChar_line {line : List Char} (h : Dimacs.unbroken line) :
    (line ++ ['\n']).flatMap translatedChar = line ++ ['\r', '\n'] := by
  have hline : line.flatMap translatedChar = line := by
    have hone : ∀ c ∈ line, translatedChar c = [c] := by
      intro c hc
      refine if_neg ?_
      rintro rfl
      exact h.1 hc
    rw [List.flatMap_congr hone, List.flatMap_singleton']
  rw [List.flatMap_append, hline]
  rfl

theorem readLines_crlf {lines : List (List Char)} (h : ∀ line ∈ lines, Dimacs.unbroken line) :
    Dimacs.splitLines false [] (lines.flatMap fun line => line ++ ['\r', '\n']) = lines := by
  have hbreak : ∀ (line front rest : List Char), Dimacs.unbroken line →
      Dimacs.splitLines false front (line ++ '\r' :: '\n' :: rest) =
        (front ++ line) :: Dimacs.splitLines false [] rest := by
    intro line front rest hline
    induction line generalizing front with
    | nil => simp [Dimacs.splitLines]
    | cons c line ih =>
      obtain ⟨hn, hr⟩ := hline
      simp only [List.mem_cons, not_or] at hn hr
      rw [List.cons_append, Dimacs.splitLines, if_neg (Ne.symm hn.1), if_neg (Ne.symm hr.1),
        ih _ ⟨hn.2, hr.2⟩, List.append_assoc, List.singleton_append]
  induction lines with
  | nil => rfl
  | cons line lines ih =>
    have hrest := ih fun l hl => h l (List.mem_cons_of_mem line hl)
    rw [List.flatMap_cons, List.append_assoc, List.cons_append, List.singleton_append,
      hbreak line [] _ (h line List.mem_cons_self), hrest]
    rfl

/-- Text is read the same with its line ends translated. -/
theorem parseTextDrat_translated {steps : List (ProofStep ℤ)}
    (h : ∀ s ∈ steps, ∀ lit ∈ s.literals, Writable lit) :
    parseTextDrat sp ic ((steps.flatMap (stepBytes false)).flatMap translated) = steps.map shown := by
  have hunbroken : ∀ line ∈ steps.map stepLine, Dimacs.unbroken line := by
    intro line hline
    obtain ⟨s, -, rfl⟩ := List.mem_map.mp hline
    exact unbroken_stepLine s
  have hchars := chars_writeLines steps
  have hlines : (Dimacs.writeLines (steps.map stepLine)).flatMap translatedChar =
      (steps.map stepLine).flatMap fun line => line ++ ['\r', '\n'] := by
    rw [Dimacs.writeLines, List.flatMap_assoc]
    exact List.flatMap_congr fun line hline => translatedChar_line (hunbroken line hline)
  refine parse_lines sp ic h ?_
  rw [flatMap_stepBytes_false, translated_byteOf hchars, chars_byteOf, hlines]
  · exact readLines_crlf hunbroken
  · intro c hc
    obtain ⟨d, hd, hc⟩ := List.mem_flatMap.mp hc
    rw [translatedChar] at hc
    split at hc
    · have hcases : c = '\r' ∨ c = '\n' := by simpa using hc
      rcases hcases with rfl | rfl <;> decide
    · rw [List.mem_singleton.mp hc]
      exact hchars d hd

end Text

/-! ## Whole proofs -/

section Proofs
variable (sp : Locale) (ic : IntegerClass) (calls : List TracerCall)

/-- Two tracers that get the same calls, one for each form, write files from which the readers get the same
steps: those traced before the file was closed. Translated line ends do not change the text form. -/
theorem drat_round_trip (h : ∀ c ∈ calls, c.Writable) :
    ∃ binary text, (DratTracer.new true).run calls = some binary ∧ (DratTracer.new false).run calls = some text ∧
      decodeBinaryDrat binary.file.content = .ok ((tracedSteps calls).map shown) ∧
      parseTextDrat sp ic text.file.content = (tracedSteps calls).map shown ∧
      parseTextDrat sp ic (simulateCrlfTranslation text.file.content) = (tracedSteps calls).map shown := by
  have hsteps := writable_tracedSteps h
  obtain ⟨binary, hbinary, hbytes⟩ := DratTracer.run_new true h
  obtain ⟨text, htext, hchars⟩ := DratTracer.run_new false h
  refine ⟨binary, text, hbinary, htext, ?_, ?_, ?_⟩
  · rw [hbytes, flatMap_stepBytes_true, decodeBinaryDrat_encoded, List.map_map]
    · exact congrArg _ (List.map_congr_left fun s hs => decodedStep_groupsOf (hsteps s hs))
    · intro e he
      obtain ⟨s, hs, rfl⟩ := List.mem_map.mp he
      exact group_groupsOf (hsteps s hs)
  · rw [hchars, parseTextDrat_steps sp ic hsteps]
  · rw [hchars, simulate_eq, parseTextDrat_translated sp ic hsteps]

/-- With its line ends translated a binary proof is still accepted, with the same kinds of steps and one
literal more for each byte that was changed, so that it is the same proof only if there was none. -/
theorem newline_translation (h : ∀ c ∈ calls, c.Writable) :
    ∃ binary steps, (DratTracer.new true).run calls = some binary ∧
      decodeBinaryDrat (simulateCrlfTranslation binary.file.content) = .ok steps ∧
      steps.map ProofStep.kind = (tracedSteps calls).map ProofStep.kind ∧
      literalCount steps = literalCount (tracedSteps calls) + binary.file.content.count 0x0a ∧
      (steps = (tracedSteps calls).map shown ↔ (0x0a : UInt8) ∉ binary.file.content) := by
  have hsteps := writable_tracedSteps h
  obtain ⟨binary, hbinary, hbytes⟩ := DratTracer.run_new true h
  have hgroups : ∀ e ∈ (tracedSteps calls).map groupsOf, ∀ g ∈ e.2, Varint.Group g := by
    intro e he
    obtain ⟨s, hs, rfl⟩ := List.mem_map.mp he
    exact group_groupsOf (hsteps s hs)
  have hclean : ((tracedSteps calls).map groupsOf).map decodedStep = (tracedSteps calls).map shown := by
    rw [List.map_map]
    exact List.map_congr_left fun s hs => decodedStep_groupsOf (hsteps s hs)
  have hshown : literalCount ((tracedSteps calls).map shown) = literalCount (tracedSteps calls) := by
    simp [literalCount, shown, Function.comp_def]
  rw [flatMap_stepBytes_true] at hbytes
  obtain ⟨htranslated, hsplit, hcount⟩ := translated_steps hgroups
  rw [← hbytes, hclean, hshown] at hcount
  refine ⟨binary, _, hbinary, ?_, ?_, hcount, ?_⟩
  · rw [hbytes, simulate_eq, htranslated, decodeBinaryDrat_encoded hsplit]
  · simp [decodedStep, splitStep, groupsOf, Function.comp_def]
  · constructor
    · intro heq hmem
      have hpos := List.count_pos_iff.mpr hmem
      rw [heq, hshown] at hcount
      omega
    · intro hmem
      have hsame : (((tracedSteps calls).map groupsOf).map splitStep).flatMap encoded = binary.file.content := by
        rw [← htranslated, ← hbytes, translated_of_not_mem hmem]
      have hdecoded := decodeBinaryDrat_encoded hsplit
      rw [hsame, hbytes, decodeBinaryDrat_encoded hgroups, hclean] at hdecoded
      exact (Except.ok.inj hdecoded).symm

end Proofs

/-- What is read as a number here: numerals, if they are integers of 32 bits. -/
def numeralsOnly : IntegerClass where
  asInteger t := if Dimacs.isNumeral t ∧ (Dimacs.asNumeric t).natAbs < 2 ^ 31 then some (Dimacs.asNumeric t)
    else none
  numeral _ h hlt := if_pos ⟨h, hlt⟩

/-- A lemma with a literal that ends in the byte of a line feed, its deletion, and a call after the end. -/
def shortProof : List TracerCall :=
  [.addDerivedClause [5, -300], .flush, .deleteClause [5, -300], .addDerivedClause [], .close,
    .deleteClause [7]]

theorem writable_shortProof : ∀ c ∈ shortProof, c.Writable := by
  simp [shortProof, TracerCall.Writable, Writable]

theorem drat_round_trip_shortProof : ∃ binary text, (DratTracer.new true).run shortProof = some binary ∧
    (DratTracer.new false).run shortProof = some text ∧
    decodeBinaryDrat binary.file.content =
      .ok [⟨.a, [some 5, some (-300)]⟩, ⟨.d, [some 5, some (-300)]⟩, ⟨.a, []⟩] := by
  obtain ⟨binary, text, hbinary, htext, hdecoded, -⟩ :=
    drat_round_trip Dimacs.asciiLocale numeralsOnly shortProof writable_shortProof
  exact ⟨binary, text, hbinary, htext, hdecoded⟩

theorem newline_translation_shortProof : ∃ binary steps, (DratTracer.new true).run shortProof = some binary ∧
    decodeBinaryDrat (simulateCrlfTranslation binary.file.content) = .ok steps ∧
    steps.map ProofStep.kind = [.a, .d, .a] := by
  obtain ⟨binary, steps, hbinary, hdecoded, hkinds, -⟩ := newline_translation shortProof writable_shortProof
  exact ⟨binary, steps, hbinary, hdecoded, hkinds⟩

end DratHelper
end Zusat
