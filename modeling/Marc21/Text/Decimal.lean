import Marc21.Text.Utf8

/-!
Decimal numbers in ASCII. `digits` writes the lowest digits of a number, with leading zeros up to a width. `padded`
writes all of its digits, so that it can take more than the width. `value?` reads a run of digits back.
-/

namespace Marc21

def isDigit (b : UInt8) : Bool := 0x30 ≤ b && b ≤ 0x39

namespace Decimal

def digit (n : Nat) : UInt8 := (0x30 + n % 10).toUInt8

def digits : Nat → Nat → Bytes
  | 0, _ => []
  | width + 1, n => digits width (n / 10) ++ [digit n]

/-- The digits that a number takes. -/
def shortest (n : Nat) : Bytes := if n < 10 then [digit n] else shortest (n / 10) ++ [digit n]

/-- A number with leading zeros up to a width. It takes more digits if it needs them. -/
def padded (width n : Nat) : Bytes :=
  List.replicate (width - (shortest n).length) 0x30 ++ shortest n

def value (bs : Bytes) : Nat := bs.foldl (fun n b => n * 10 + (b.toNat - 0x30)) 0

def value? (bs : Bytes) : Option Nat := if bs.all isDigit then some (value bs) else none

@[simp] theorem length_digits (width n : Nat) : (digits width n).length = width := by
  induction width generalizing n with
  | zero => rfl
  | succ width ih => simp [digits, ih]

theorem digits_zero (width : Nat) : digits width 0 = List.replicate width 0x30 := by
  induction width with
  | zero => rfl
  | succ width ih =>
    rw [digits, Nat.zero_div, ih, List.replicate_succ']
    rfl

/-- A number that fits into the width is written in it. -/
theorem padded_eq_digits {width n : Nat} (hwidth : 0 < width) (h : n < Nat.pow 10 width) :
    padded width n = digits width n := by
  induction width generalizing n with
  | zero => exact absurd hwidth (Nat.lt_irrefl 0)
  | succ width ih =>
    rw [padded, shortest, digits]
    split
    · next hlt =>
      rw [Nat.div_eq_of_lt hlt, digits_zero]
      rfl
    · next hge =>
      have hdiv : n / 10 < Nat.pow 10 width := Nat.div_lt_of_lt_mul (by rwa [Nat.mul_comm])
      have hpos : 0 < width := by
        rw [Nat.pos_iff_ne_zero]
        rintro rfl
        exact hge h
      rw [← ih hpos hdiv, padded, List.length_append, List.length_singleton, Nat.add_sub_add_right,
        List.append_assoc]

theorem value_append_singleton (bs : Bytes) (b : UInt8) :
    value (bs ++ [b]) = value bs * 10 + (b.toNat - 0x30) := by
  simp [value, List.foldl_append]

theorem toNat_digit (n : Nat) : (digit n).toNat = 0x30 + n % 10 := by
  simp only [digit, Nat.toUInt8, UInt8.toNat_ofNat']
  omega

theorem isDigit_digit (n : Nat) : isDigit (digit n) = true := by
  simp only [isDigit, Bool.and_eq_true, decide_eq_true_eq, UInt8.le_iff_toNat_le, toNat_digit]
  constructor
  · simp only [UInt8.toNat_ofNat]
    omega
  · simp only [UInt8.toNat_ofNat]
    omega

theorem all_isDigit_digits (width n : Nat) : (digits width n).all isDigit = true := by
  induction width generalizing n with
  | zero => rfl
  | succ width ih => simp [digits, ih, isDigit_digit]

theorem value_digits (width n : Nat) : value (digits width n) = n % Nat.pow 10 width := by
  induction width generalizing n with
  | zero => exact (Nat.mod_one n).symm
  | succ width ih =>
    rw [digits, value_append_singleton, ih, toNat_digit]
    have h := @Nat.mod_mul 10 (Nat.pow 10 width) n
    rw [Nat.mul_comm] at h
    have hp : Nat.pow 10 (width + 1) = Nat.pow 10 width * 10 := rfl
    rw [hp, h]
    omega

theorem value?_digits (width n : Nat) : value? (digits width n) = some (n % Nat.pow 10 width) := by
  simp [value?, all_isDigit_digits, value_digits]

end Decimal

end Marc21
