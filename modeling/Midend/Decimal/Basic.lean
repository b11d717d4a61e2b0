/-!
# Decimal numbers and how they are written

A decimal is a whole number of units of a power of ten. It is written positionally or with an
exponent, as a `Decimal.Style` says.
-/

namespace Midend

/-- The number `digits * 10 ^ scale`. -/
structure Decimal where
  /-- The significant digits, read as one number. -/
  digits : Nat
  /-- The power of ten that the last digit counts. -/
  scale : Int
deriving DecidableEq, Repr

namespace Decimal

/-- Drops at most the given number of trailing zeros. -/
def trim : Nat → Decimal → Decimal
  | 0, d => d
  | fuel + 1, d => if d.digits % 10 = 0 then trim fuel ⟨d.digits / 10, d.scale + 1⟩ else d

/-- The significant digits as text. -/
def digitText (d : Decimal) : String := toString d.digits

/-- The power of ten that the first digit counts. -/
def leading (d : Decimal) : Int := d.scale + d.digitText.length - 1

/-- The digits around a point, with at least one digit on both sides of it. -/
def positional (d : Decimal) : String :=
  let s := d.digitText
  let zeros (n : Int) : String := String.ofList (List.replicate n.toNat '0')
  if 0 ≤ d.scale then s ++ zeros d.scale ++ ".0"
  else if 0 ≤ d.leading then
    let whole := (d.leading + 1).toNat
    String.ofList (s.toList.take whole) ++ "." ++ String.ofList (s.toList.drop whole)
  else "0." ++ zeros (-d.leading - 1) ++ s

/-- The first digit, the others after a point if there are any, and the power of ten. -/
def scientific (d : Decimal) : String :=
  let mantissa := match d.digitText.toList with
    | c :: c' :: cs => String.ofList (c :: '.' :: c' :: cs)
    | cs => String.ofList cs
  mantissa ++ "e" ++ toString d.leading

/-- Which numbers are written positionally: those whose first digit counts a power of ten in the
given range. -/
structure Style where
  /-- The least power of ten of a first digit that is written positionally. -/
  least : Int
  /-- The greatest power of ten of a first digit that is written positionally. -/
  greatest : Int

/-- Writes a decimal other than zero. -/
def write (style : Style) (d : Decimal) : String :=
  if style.least ≤ d.leading ∧ d.leading ≤ style.greatest then d.positional else d.scientific

end Decimal

end Midend
