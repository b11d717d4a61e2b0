import Mathlib.Algebra.Group.Nat.Defs
import Midend.Json.Inst

/-!
# Floating-point numbers as decimal fractions

Every finite number is a whole number of units, the unit being the least number above zero
(`Binary64.units`), and so a decimal fraction. A format that writes the fraction with all its digits
loses nothing, also the sign of a zero.

* `Binary64.ofUnits?_units`: the sign and the number of units tell a finite number.
* `FloatForm.decimal_faithful`: finite numbers written as decimal fractions are read back.
-/

namespace Midend

namespace Binary64

/-- The binary places of the unit. -/
def unitPlaces : Nat := 1074

/-- The magnitude of a finite number in units. -/
def units (x : Binary64) : Nat :=
  if x.exponentField = 0 then x.fractionField
  else (fractionSize + x.fractionField) * 2 ^ (x.exponentField - 1)

/-- The number with the given sign and magnitude in units. What is finer than the places of the
number is dropped, and there is none if the magnitude is too great. -/
def ofUnits? (negative : Bool) (n : Nat) : Option Binary64 :=
  let places := n.log2 - 52
  let fields := places * fractionSize + n / 2 ^ places
  if fields < 2047 * fractionSize then
    some ⟨((if negative then 0x8000000000000000 else 0) + fields).toUInt64⟩
  else none

theorem log2_mul_two_pow {m k : Nat} (hLow : fractionSize ≤ m) (hHigh : m < 2 * fractionSize) :
    (m * 2 ^ k).log2 = 52 + k := by
  have hSize : fractionSize = 2 ^ 52 := rfl
  have hPos : 0 < 2 ^ k := Nat.two_pow_pos k
  rw [Nat.log2_eq_iff (Nat.mul_ne_zero (by omega) (by omega)), Nat.pow_succ, Nat.pow_add, ← hSize]
  constructor
  · exact Nat.mul_le_mul_right _ hLow
  · rw [Nat.mul_right_comm, Nat.mul_comm fractionSize]
    exact Nat.mul_lt_mul_of_pos_right hHigh hPos

theorem fractionField_lt (x : Binary64) : x.fractionField < fractionSize :=
  Nat.mod_lt _ (by decide)

/-- The exponent and the fraction are found again in the number of units. -/
theorem fields_units (x : Binary64) :
    (x.units.log2 - 52) * fractionSize + x.units / 2 ^ (x.units.log2 - 52) =
      x.exponentField * fractionSize + x.fractionField := by
  have hFraction := x.fractionField_lt
  rw [units]
  cases hExponent : x.exponentField with
  | zero =>
    have hLog : x.fractionField.log2 - 52 = 0 := by
      rcases Nat.eq_zero_or_pos x.fractionField with hZero | hPos
      · rw [hZero]
        rfl
      · have hLt : x.fractionField.log2 < 52 := (Nat.log2_lt (by omega)).mpr hFraction
        omega
    rw [if_pos rfl, hLog, Nat.pow_zero, Nat.div_one]
  | succ k =>
    have hLog := log2_mul_two_pow (k := k) (Nat.le_add_right fractionSize x.fractionField)
      (by omega)
    rw [if_neg (Nat.succ_ne_zero k), Nat.succ_sub_one, hLog, Nat.add_sub_cancel_left,
      Nat.mul_div_cancel _ (Nat.two_pow_pos k), Nat.succ_mul, Nat.add_assoc]

/-- The bits are the sign, the exponent field and the fraction field. -/
theorem toNat_bits (x : Binary64) :
    x.bits.toNat = (if x.isNegative then 0x8000000000000000 else 0) +
      (x.exponentField * fractionSize + x.fractionField) := by
  have hBits := x.bits.toNat_lt
  simp only [isNegative, exponentField, fractionField, fractionSize, decide_eq_true_eq]
  split <;> omega

/-- The sign and the number of units tell a finite number. -/
theorem ofUnits?_units {x : Binary64} (h : x.isFinite = true) :
    ofUnits? x.isNegative x.units = some x := by
  have hFraction := x.fractionField_lt
  have hExponent : x.exponentField < 2047 := by
    have hNe : x.exponentField ≠ 2047 := of_decide_eq_true h
    have hLt : x.exponentField < 2048 := Nat.mod_lt _ (by decide)
    omega
  have hRange : x.exponentField * fractionSize + x.fractionField < 2047 * fractionSize := by
    rw [fractionSize] at hFraction ⊢
    omega
  simp only [ofUnits?, fields_units]
  rw [if_pos hRange, ← toNat_bits]
  exact congrArg (fun bits => some (Binary64.mk bits)) UInt64.ofNat_toNat

end Binary64

namespace FloatForm

open Binary64 (unitPlaces)

/-- The digits and the places of a decimal fraction without the zeros at its end, but for one in the
first place. -/
def trim (digits : Nat) : Nat → Nat × Nat
  | places + 2 =>
    if digits % 10 = 0 then trim (digits / 10) (places + 1) else (digits, places + 2)
  | places => (digits, places)

/-- A finite number as a decimal fraction with all its digits, and any other as null. -/
def writeNumber (x : Binary64) : Json :=
  if x.isFinite then
    let (digits, places) := trim (x.units * 5 ^ unitPlaces) unitPlaces
    .num x.isNegative digits places
  else .null

/-- Reads a number, whole or not. -/
def readNumber? : Json → Option Binary64
  | .num negative digits places =>
    Binary64.ofUnits? negative (digits * 2 ^ unitPlaces / 10 ^ places)
  | _ => none

/-- Numbers as decimal fractions. -/
def decimal : FloatForm := ⟨writeNumber, readNumber?⟩

theorem decimal_write : decimal.write = writeNumber := rfl

theorem decimal_read? : decimal.read? = readNumber? := rfl

theorem writeNumber_eq {x : Binary64} {digits places : Nat} (hFinite : x.isFinite = true)
    (h : trim (x.units * 5 ^ unitPlaces) unitPlaces = (digits, places)) :
    writeNumber x = .num x.isNegative digits places := by
  rw [writeNumber, if_pos hFinite, h]

/-- Zeros at the end make no difference. -/
theorem div_trim (scale digits places : Nat) :
    (trim digits places).1 * scale / 10 ^ (trim digits places).2 = digits * scale / 10 ^ places := by
  fun_induction trim digits places with
  | case1 digits places hZero ih =>
    have hDigits : digits = 10 * (digits / 10) := by omega
    calc _ = digits / 10 * scale / 10 ^ (places + 1) := ih
      _ = 10 * (digits / 10 * scale) / (10 * 10 ^ (places + 1)) :=
        (Nat.mul_div_mul_left _ _ (by decide)).symm
      _ = digits * scale / 10 ^ (places + 2) := by
        rw [← Nat.mul_assoc, ← hDigits, Nat.pow_succ 10 (places + 1), Nat.mul_comm 10]
  | case2 => rfl
  | case3 => rfl

theorem mul_five_pow_mul_two_pow_div (m n : Nat) : m * 5 ^ n * 2 ^ n / 10 ^ n = m := by
  rw [Nat.mul_assoc, ← Nat.mul_pow]
  exact Nat.mul_div_cancel m (Nat.pow_pos (by decide))

theorem readNumber?_writeNumber {x : Binary64} (h : x.isFinite = true) :
    readNumber? (writeNumber x) = some x := by
  obtain ⟨⟨digits, places⟩, hTrim⟩ : ∃ t, t = trim (x.units * 5 ^ unitPlaces) unitPlaces := ⟨_, rfl⟩
  have hUnits : digits * 2 ^ unitPlaces / 10 ^ places = x.units := by
    have hSame := div_trim (2 ^ unitPlaces) (x.units * 5 ^ unitPlaces) unitPlaces
    rw [← hTrim, mul_five_pow_mul_two_pow_div] at hSame
    exact hSame
  rw [writeNumber_eq h hTrim.symm, readNumber?, hUnits]
  exact Binary64.ofUnits?_units h

theorem writeNumber_of_not_finite {x : Binary64} (h : x.isFinite = false) : writeNumber x = .null := by
  simp [writeNumber, h]

/-- Decimal fractions with all their digits are read back. -/
theorem decimal_faithful : decimal.Faithful where
  read?_write x h := by
    rw [decimal_read?, decimal_write]
    exact readNumber?_writeNumber h
  write_of_not_finite x h := by
    rw [decimal_write]
    exact writeNumber_of_not_finite h
  read?_null := rfl

end FloatForm

end Midend
