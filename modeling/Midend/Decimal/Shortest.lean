import Midend.Decimal.Basic

/-!
# Shortest decimals

A binary floating-point number stands for all reals that round to it. `shortest` finds the decimal
with the fewest digits among those reals, and of the decimals with that many digits the one
nearest to the number itself.

All comparisons are made between whole numbers: both sides are multiplied by the powers of two and
ten that clear the denominators.
-/

namespace Midend

/-- The number `quarters * 2 ^ exponent`, with the ends of the interval of reals that round to
it counted in the same unit. The unit is a quarter of the last binary place. -/
structure Rounding where
  /-- The number in quarters of its last binary place. -/
  quarters : Nat
  /-- The power of two that a quarter counts. -/
  exponent : Int
  /-- The distance from the number down to the end of the interval. -/
  below : Nat
  /-- The distance from the number up to the end of the interval. -/
  above : Nat
  /-- Whether the ends belong to the interval. -/
  closed : Bool

namespace Rounding

/-- The number of decimal digits of a positive number. -/
def digitCount (n : Nat) : Nat := (toString n).length

/-- The power of ten of the first decimal digit of a positive number. -/
def leading (r : Rounding) : Int :=
  let num := r.quarters * Nat.pow 2 r.exponent.toNat
  let den := Nat.pow 2 (-r.exponent).toNat
  if den ≤ num then (digitCount (num / den) : Int) - 1
  else -(digitCount ((den + num - 1) / num - 1) : Int)

/-- The decimal on the grid of the given power of ten that lies in the interval and is nearest to
the number; the upper one if two are equally near. -/
def onGrid? (r : Rounding) (scale : Int) : Option Decimal :=
  let unit := Nat.pow 10 scale.toNat * Nat.pow 2 (-r.exponent).toNat
  let quarter := Nat.pow 2 r.exponent.toNat * Nat.pow 10 (-scale).toNat
  let value := r.quarters * quarter
  let low := (r.quarters - r.below) * quarter
  let high := (r.quarters + r.above) * quarter
  let hits (n : Nat) : Bool :=
    if r.closed then low ≤ n * unit && n * unit ≤ high else low < n * unit && n * unit < high
  let down := value / unit
  let up := down + 1
  if hits up && (!hits down || up * unit - value ≤ value - down * unit) then some ⟨up, scale⟩
  else if hits down then some ⟨down, scale⟩
  else none

/-- The shortest decimal that rounds to a positive number. Seventeen digits always suffice for
a number of fifty-three binary digits. -/
def shortest (r : Rounding) : Decimal :=
  let top := r.leading
  (((List.range 17).findSome? fun (i : Nat) => r.onGrid? (top - i)).getD ⟨0, 0⟩).trim 17

end Rounding

end Midend
