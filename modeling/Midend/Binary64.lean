import Midend.Decimal.Shortest

/-!
# Double-precision numbers

A floating-point literal is kept as its sixty-four bits: a sign, an exponent field of eleven bits
and a fraction field of fifty-two. Two literals are the same when their bits are, so the two zeros
differ and a number that is none is equal to itself.

`Binary64.text` is the written form in listings.
-/

namespace Midend

/-- A double-precision number by its bits. -/
structure Binary64 where
  /-- The sign, exponent field and fraction field, from the top bit down. -/
  bits : UInt64
deriving DecidableEq, Repr, Inhabited

namespace Binary64

/-- The number of values of the fraction field, two to the fifty-second. -/
def fractionSize : Nat := 0x10000000000000

/-- Whether the sign bit is set. -/
def isNegative (x : Binary64) : Bool := 0x8000000000000000 ≤ x.bits.toNat

/-- The exponent field. -/
def exponentField (x : Binary64) : Nat := x.bits.toNat / fractionSize % 2048

/-- The fraction field. -/
def fractionField (x : Binary64) : Nat := x.bits.toNat % fractionSize

/-- Whether the bits stand for a number: neither an infinity nor the absence of a number. -/
def isFinite (x : Binary64) : Bool := x.exponentField ≠ 2047

/-- The magnitude of a finite number and the reals that round to it. The interval is closed when
the last bit of the significand is clear, and its lower half is half as wide where the binary
places below are finer. -/
def rounding (x : Binary64) : Rounding :=
  let significand :=
    if x.exponentField = 0 then x.fractionField else fractionSize + x.fractionField
  let place : Int := (if x.exponentField = 0 then 1 else x.exponentField : Nat) - 1075
  { quarters := 4 * significand
    exponent := place - 2
    below := if significand = fractionSize then 1 else 2
    above := 2
    closed := significand % 2 = 0 }

/-- Numbers from one ten-thousandth up to below ten to the sixteenth are written positionally. -/
def style : Decimal.Style := ⟨-4, 15⟩

/-- The written form: the fewest digits that read back. -/
def text (x : Binary64) : String :=
  let sign := if x.isNegative then "-" else ""
  if x.isFinite then
    if x.exponentField = 0 ∧ x.fractionField = 0 then sign ++ "0.0"
    else sign ++ x.rounding.shortest.write style
  else if x.fractionField = 0 then sign ++ "inf"
  else "NaN"

end Binary64

end Midend
