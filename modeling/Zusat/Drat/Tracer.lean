import Zusat.Model.DratTracer
import Zusat.Dimacs.RoundTrip

/-! # What the tracer writes

After any calls the file holds the steps traced before it was closed, each in the form of the file. -/

namespace Zusat
open Foundations
set_option autoImplicit false

/-! ## Bytes put on a file -/

namespace ProofFile

def byteOf (c : Char) : UInt8 := UInt8.ofNat c.toNat

def append (f : ProofFile) (bs : List UInt8) : ProofFile := { f with content := f.content ++ bs }

@[simp] theorem append_nil (f : ProofFile) : f.append [] = f := by
  rw [append, List.append_nil]

@[simp] theorem append_append (f : ProofFile) (bs cs : List UInt8) :
    (f.append bs).append cs = f.append (bs ++ cs) := by
  simp [append]

@[simp] theorem append_content (f : ProofFile) (bs : List UInt8) :
    (f.append bs).content = f.content ++ bs := rfl

@[simp] theorem append_closed (f : ProofFile) (bs : List UInt8) : (f.append bs).closed = f.closed := rfl

theorem putChar_eq (f : ProofFile) (c : Char) : f.putChar c = f.append [byteOf c] := rfl

theorem foldl_putByte (f : ProofFile) (bs : List UInt8) : bs.foldl putByte f = f.append bs := by
  induction bs generalizing f with
  | nil => simp
  | cons b bs ih =>
    rw [List.foldl_cons, ih, putByte, ← append, append_append, List.singleton_append]

theorem putChars_eq (f : ProofFile) (s : List Char) : f.putChars s = f.append (s.map byteOf) := by
  induction s generalizing f with
  | nil => simp [putChars]
  | cons c s ih =>
    have hrest := ih (f.putChar c)
    unfold putChars at hrest ⊢
    rw [List.foldl_cons, hrest, putChar_eq, append_append]
    rfl

/-! ## Numbers -/

/-- The buffer is filled with the digits of the number if it has room for them. -/
theorem fillBuffer_eq {i n : ℕ} (hn : 0 < n) (h : n < 10 ^ i) (buffer : List Char) :
    fillBuffer i n buffer = some (Nat.toDigits 10 n ++ buffer) := by
  have hdigit : ∀ d, d < 10 → Char.ofNat (48 + d) = Nat.digitChar d := by decide
  induction i generalizing n buffer with
  | zero => simp at h; omega
  | succ i ih =>
    obtain ⟨m, rfl⟩ : ∃ m, n = m + 1 := ⟨n - 1, by omega⟩
    rw [fillBuffer, hdigit _ (Nat.mod_lt _ (by omega))]
    by_cases hm : m + 1 < 10
    · rw [Nat.div_eq_of_lt hm, Nat.mod_eq_of_lt hm, Nat.toDigits_of_lt_base hm, fillBuffer]
      rfl
    · have hdiv : (m + 1) / 10 < 10 ^ i := by
        rw [Nat.div_lt_iff_lt_mul (by omega), ← pow_succ]
        exact h
      rw [ih (by omega) hdiv, Nat.toDigits_of_base_le (by omega) (by omega : 10 ≤ m + 1), List.append_assoc]
      rfl

/-- Eleven characters are enough for every integer, and its decimal digits are written. -/
theorem putInt_eq {lit : ℤ} (h : lit.natAbs < 2 ^ 31) (f : ProofFile) :
    f.putInt lit = some (f.append ((Dimacs.decimal lit).map byteOf)) := by
  rw [putInt]
  by_cases hzero : lit = 0
  · rw [if_pos hzero, hzero, putChar_eq]
    rfl
  · rw [if_neg hzero, if_neg (by omega), fillBuffer_eq (by omega) (by omega), List.append_nil, Option.map_some,
      Dimacs.decimal]
    by_cases hneg : lit < 0
    · rw [if_pos hneg, if_pos hneg, putChar_eq, putChars_eq, append_append]
      rfl
    · rw [if_neg hneg, if_neg hneg, putChars_eq]

end ProofFile

/-! ## Steps -/

/-- A literal the tracer can write. -/
def Writable (lit : ℤ) : Prop := lit ≠ 0 ∧ lit.natAbs < 2 ^ 31

/-- The number a literal is written as in binary form. -/
def literalCode (lit : ℤ) : ℕ := 2 * lit.natAbs + (if lit < 0 then 1 else 0)

def StepKind.marker : StepKind → UInt8
  | .a => 0x61
  | .d => 0x64

def binaryStep (s : ProofStep ℤ) : List UInt8 :=
  s.kind.marker :: (s.literals.flatMap fun lit => Varint.bytes (literalCode lit)) ++ [0]

/-- The tokens of a step in text form. -/
def stepTokens (s : ProofStep ℤ) : List (List Char) :=
  (if s.kind = .d then [['d']] else []) ++ (s.literals ++ [0]).map Dimacs.decimal

def textStep (s : ProofStep ℤ) : List Char := [' '].intercalate (stepTokens s) ++ ['\n']

def stepBytes (binary : Bool) (s : ProofStep ℤ) : List UInt8 :=
  if binary then binaryStep s else (textStep s).map ProofFile.byteOf

/-- The steps traced before the file is closed. -/
def tracedSteps : List TracerCall → List (ProofStep ℤ)
  | [] => []
  | .addDerivedClause clause :: cs => ⟨.a, clause⟩ :: tracedSteps cs
  | .deleteClause clause :: cs => ⟨.d, clause⟩ :: tracedSteps cs
  | .flush :: cs => tracedSteps cs
  | .close :: _ => []

/-- All literals of a call can be written. -/
def TracerCall.Writable : TracerCall → Prop
  | .addDerivedClause clause => ∀ lit ∈ clause, Zusat.Writable lit
  | .deleteClause clause => ∀ lit ∈ clause, Zusat.Writable lit
  | .flush => True
  | .close => True

theorem writable_tracedSteps {calls : List TracerCall} (h : ∀ c ∈ calls, c.Writable) :
    ∀ s ∈ tracedSteps calls, ∀ lit ∈ s.literals, Writable lit := by
  induction calls with
  | nil => simp [tracedSteps]
  | cons c cs ih =>
    have hrest := ih fun d hd => h d (List.mem_cons_of_mem c hd)
    have hhead := h c List.mem_cons_self
    cases c with
    | addDerivedClause clause =>
      intro s hs
      cases hs with
      | head => exact hhead
      | tail _ hs => exact hrest s hs
    | deleteClause clause =>
      intro s hs
      cases hs with
      | head => exact hhead
      | tail _ hs => exact hrest s hs
    | flush => exact hrest
    | close => simp [tracedSteps]

namespace DratTracer

theorem foldl_putBinaryLit (clause : List ℤ) (f : ProofFile) : clause.foldl putBinaryLit f =
    f.append (clause.flatMap fun lit => Varint.bytes (literalCode lit)) := by
  induction clause generalizing f with
  | nil => simp
  | cons lit clause ih =>
    rw [List.foldl_cons, ih, putBinaryLit, ProofFile.foldl_putByte, ProofFile.append_append]
    rfl

theorem foldlM_putInt {clause : List ℤ} (h : ∀ lit ∈ clause, Writable lit) (f : ProofFile) :
    clause.foldlM (fun f lit => (ProofFile.putInt f lit).map fun f => f.putChar ' ') f =
      some (f.append ((clause.flatMap fun lit => Dimacs.decimal lit ++ [' ']).map ProofFile.byteOf)) := by
  induction clause generalizing f with
  | nil => simp
  | cons lit clause ih =>
    have hrest := ih fun l hl => h l (List.mem_cons_of_mem lit hl)
    rw [List.foldlM_cons, ProofFile.putInt_eq (h lit List.mem_cons_self).2]
    simp only [Option.map_some, Option.bind_eq_bind, Option.bind_some]
    rw [hrest, ProofFile.putChar_eq]
    simp

/-- Literals followed by blanks and a zero are literals and a zero with blanks between them. -/
theorem intercalate_literals (clause : List ℤ) : [' '].intercalate ((clause ++ [0]).map Dimacs.decimal) =
    (clause.flatMap fun lit => Dimacs.decimal lit ++ [' ']) ++ ['0'] := by
  induction clause with
  | nil => rfl
  | cons lit clause ih =>
    have hne : (clause ++ [0]).map Dimacs.decimal ≠ [] := by simp
    obtain ⟨t, ts, hts⟩ := List.exists_cons_of_ne_nil hne
    rw [List.cons_append, List.map_cons, hts, List.intercalate_cons_cons, ← hts, ih]
    simp

theorem textStep_eq (s : ProofStep ℤ) : textStep s = (if s.kind = .d then "d ".toList else []) ++
    (s.literals.flatMap fun lit => Dimacs.decimal lit ++ [' ']) ++ "0\n".toList := by
  rw [textStep, stepTokens]
  split
  · have hne : (s.literals ++ [0]).map Dimacs.decimal ≠ [] := by simp
    obtain ⟨t, ts, hts⟩ := List.exists_cons_of_ne_nil hne
    rw [List.singleton_append, hts, List.intercalate_cons_cons, ← hts, intercalate_literals]
    simp
  · rw [List.nil_append, intercalate_literals]
    simp

section Calls
variable {t : DratTracer} {clause : List ℤ}

theorem dratAddClause_eq (h : ∀ lit ∈ clause, Writable lit) :
    t.dratAddClause clause = some { t with file := t.file.append (stepBytes t.binary ⟨.a, clause⟩) } := by
  cases hb : t.binary with
  | true => simp [dratAddClause, putLits, hb, foldl_putBinaryLit, stepBytes, binaryStep, StepKind.marker,
      ProofFile.putByte, ProofFile.putChar, ProofFile.append]
  | false =>
    simp only [dratAddClause, putLits, hb, foldlM_putInt h, stepBytes, textStep_eq, ProofFile.putChars_eq]
    simp

theorem dratDeleteClause_eq (h : ∀ lit ∈ clause, Writable lit) :
    t.dratDeleteClause clause = some { t with file := t.file.append (stepBytes t.binary ⟨.d, clause⟩) } := by
  cases hb : t.binary with
  | true => simp [dratDeleteClause, putLits, hb, foldl_putBinaryLit, stepBytes, binaryStep, StepKind.marker,
      ProofFile.putByte, ProofFile.putChar, ProofFile.append]
  | false =>
    simp only [dratDeleteClause, putLits, hb, foldlM_putInt h, stepBytes, textStep_eq, ProofFile.putChars_eq]
    simp

/-- Nothing is written on a closed file. -/
theorem run_closed (hclosed : t.file.closed = true) (calls : List TracerCall) : t.run calls = some t := by
  induction calls with
  | nil => rfl
  | cons c cs ih =>
    have hcall : t.call c = some t := by
      cases c with
      | addDerivedClause clause => exact if_pos hclosed
      | deleteClause clause => exact if_pos hclosed
      | flush => rfl
      | close =>
        obtain ⟨b, f⟩ := t
        exact congrArg (fun closed => some (DratTracer.mk b ⟨f.content, closed⟩)) hclosed.symm
    rw [run, hcall, Option.bind_some, ih]

/-- One step after the other is written until the file is closed. -/
theorem run_open (hopen : t.file.closed = false) {calls : List TracerCall} (h : ∀ c ∈ calls, c.Writable) :
    ∃ t', t.run calls = some t' ∧
      t'.file.content = t.file.content ++ (tracedSteps calls).flatMap (stepBytes t.binary) := by
  induction calls generalizing t with
  | nil => exact ⟨t, rfl, by simp [tracedSteps]⟩
  | cons c cs ih =>
    have hrest : ∀ d ∈ cs, d.Writable := fun d hd => h d (List.mem_cons_of_mem c hd)
    have hhead := h c List.mem_cons_self
    cases c with
    | addDerivedClause clause =>
      have hcall : t.call (.addDerivedClause clause) = _ :=
        (if_neg (by rw [hopen]; exact Bool.false_ne_true)).trans (dratAddClause_eq hhead)
      obtain ⟨t', hrun, hcontent⟩ := ih
        (t := { t with file := t.file.append (stepBytes t.binary ⟨.a, clause⟩) }) hopen hrest
      refine ⟨t', by rw [run, hcall, Option.bind_some, hrun], ?_⟩
      rw [hcontent, ProofFile.append_content, List.append_assoc]
      rfl
    | deleteClause clause =>
      have hcall : t.call (.deleteClause clause) = _ :=
        (if_neg (by rw [hopen]; exact Bool.false_ne_true)).trans (dratDeleteClause_eq hhead)
      obtain ⟨t', hrun, hcontent⟩ := ih
        (t := { t with file := t.file.append (stepBytes t.binary ⟨.d, clause⟩) }) hopen hrest
      refine ⟨t', by rw [run, hcall, Option.bind_some, hrun], ?_⟩
      rw [hcontent, ProofFile.append_content, List.append_assoc]
      rfl
    | flush => exact ih hopen hrest
    | close =>
      refine ⟨_, run_closed rfl cs, ?_⟩
      simp [tracedSteps]

/-- The file of a new tracer after any calls. -/
theorem run_new (binary : Bool) {calls : List TracerCall} (h : ∀ c ∈ calls, c.Writable) :
    ∃ t, (new binary).run calls = some t ∧
      t.file.content = (tracedSteps calls).flatMap (stepBytes binary) := by
  obtain ⟨t, hrun, hcontent⟩ := run_open (t := new binary) rfl h
  exact ⟨t, hrun, hcontent⟩

end Calls
end DratTracer
end Zusat
