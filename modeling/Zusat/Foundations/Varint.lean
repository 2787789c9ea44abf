import Mathlib.Algebra.Order.Ring.Nat
import Mathlib.Tactic.Ring

/-! # Numbers in variable bytes

A number is written seven bits at a time, the low ones first, and every byte but the last has its top bit
set. A reader that collects groups until a byte without that bit needs no length, whatever follows, and a
change of the last byte that keeps its top bit clear only changes the number read. -/

namespace Foundations.Varint
set_option autoImplicit false

/-! ## Writing -/

/-- The groups of a number, for at most `fuel` bytes before the last one. -/
def bytesLoop : ℕ → ℕ → List UInt8
  | 0, x => [UInt8.ofNat x]
  | fuel + 1, x =>
    if x < 128 then [UInt8.ofNat x] else UInt8.ofNat (x % 128 + 128) :: bytesLoop fuel (x / 128)

def bytes (x : ℕ) : List UInt8 := bytesLoop x x

/-- Fuel beyond the number itself does not matter. -/
theorem bytesLoop_eq {fuel x : ℕ} (h : x ≤ fuel) : bytesLoop fuel x = bytes x := by
  unfold bytes
  induction fuel using Nat.strong_induction_on generalizing x with
  | _ fuel ih =>
    cases fuel with
    | zero =>
      have hx : x = 0 := by omega
      rw [hx]
    | succ fuel =>
      cases x with
      | zero => simp [bytesLoop]
      | succ x =>
        simp only [bytesLoop]
        split
        · rfl
        · have hleft := ih fuel (by omega) (x := (x + 1) / 128) (by omega)
          have hright := ih x (by omega) (x := (x + 1) / 128) (by omega)
          rw [hleft, hright]

theorem bytes_small {x : ℕ} (h : x < 128) : bytes x = [UInt8.ofNat x] := by
  cases x with
  | zero => rfl
  | succ x => simp [bytes, bytesLoop, h]

theorem bytes_large {x : ℕ} (h : ¬x < 128) : bytes x = UInt8.ofNat (x % 128 + 128) :: bytes (x / 128) := by
  cases x with
  | zero => omega
  | succ x =>
    rw [bytes, bytesLoop, if_neg h, bytesLoop_eq (by omega)]

/-! ## The value of a sequence of groups -/

def value : List UInt8 → ℕ
  | [] => 0
  | b :: bs => b.toNat % 128 + 128 * value bs

theorem value_bytes (x : ℕ) : value (bytes x) = x := by
  induction x using Nat.strong_induction_on with
  | _ x ih =>
    by_cases h : x < 128
    · rw [bytes_small h]
      simp only [value, UInt8.toNat_ofNat']
      omega
    · rw [bytes_large h, value, ih (x / 128) (by omega), UInt8.toNat_ofNat']
      omega

/-- Groups in which the top bit is set exactly before the last one. -/
structure Ended (front : List UInt8) (last : UInt8) : Prop where
  marked : ∀ b ∈ front, 128 ≤ b.toNat
  unmarked : last.toNat < 128

theorem bytes_ended (x : ℕ) : ∃ front last, bytes x = front ++ [last] ∧ Ended front last := by
  induction x using Nat.strong_induction_on with
  | _ x ih =>
    by_cases h : x < 128
    · refine ⟨[], UInt8.ofNat x, bytes_small h, by simp, ?_⟩
      rw [UInt8.toNat_ofNat']
      omega
    · obtain ⟨front, last, heq, hmarked, hlast⟩ := ih (x / 128) (by omega)
      refine ⟨UInt8.ofNat (x % 128 + 128) :: front, last, by rw [bytes_large h, heq]; rfl, ?_, hlast⟩
      intro b hb
      cases hb with
      | head =>
        rw [UInt8.toNat_ofNat']
        omega
      | tail _ hb => exact hmarked b hb

/-- Groups that do not start with a byte zero, which is left to mark the end of a sequence of numbers. -/
def Group (g : List UInt8) : Prop :=
  ∃ front last, g = front ++ [last] ∧ Ended front last ∧ (front = [] → last ≠ 0)

theorem group_bytes {x : ℕ} (h : 0 < x) : Group (bytes x) := by
  obtain ⟨front, last, heq, hended⟩ := bytes_ended x
  refine ⟨front, last, heq, hended, ?_⟩
  rintro rfl rfl
  have hvalue := value_bytes x
  rw [heq] at hvalue
  have hzero : value ([] ++ [(0 : UInt8)]) = 0 := rfl
  omega

theorem Group.head {g : List UInt8} (h : Group g) : ∃ b bs, g = b :: bs ∧ b ≠ 0 := by
  obtain ⟨front, last, rfl, hended, hne⟩ := h
  cases front with
  | nil => exact ⟨last, [], rfl, hne rfl⟩
  | cons b front =>
    refine ⟨b, front ++ [last], rfl, ?_⟩
    rintro rfl
    exact absurd (hended.marked 0 List.mem_cons_self) (by decide)

/-! ## Reading -/

/-- Groups are collected in `x`, the next one `shift` bits up; the value and what follows the last group. -/
def read (x shift : ℕ) : List UInt8 → Option (ℕ × List UInt8)
  | [] => none
  | b :: bs =>
    let x := x + b.toNat % 128 * 2 ^ shift
    if b.toNat / 128 = 0 then some (x, bs) else read x (shift + 7) bs

theorem read_ended {front : List UInt8} {last : UInt8} (h : Ended front last) (x shift : ℕ)
    (rest : List UInt8) :
    read x shift (front ++ [last] ++ rest) = some (x + 2 ^ shift * value (front ++ [last]), rest) := by
  obtain ⟨hmarked, hlast⟩ := h
  induction front generalizing x shift with
  | nil =>
    simp only [List.nil_append, List.cons_append, read, value]
    rw [if_pos (by omega), mul_zero, add_zero, mul_comm]
  | cons b front ih =>
    have hb : 128 ≤ b.toNat := hmarked b List.mem_cons_self
    simp only [List.cons_append, read]
    rw [if_neg (by omega), ih _ _ (fun c hc => hmarked c (List.mem_cons_of_mem _ hc)), value, pow_add]
    congr 2
    ring

theorem read_group {g : List UInt8} (h : Group g) (rest : List UInt8) :
    read 0 0 (g ++ rest) = some (value g, rest) := by
  obtain ⟨front, last, rfl, hended, -⟩ := h
  simpa using read_ended hended 0 0 rest

end Foundations.Varint
