/-!
# Decimals

A decimal is a whole number of units of a power of ten. It stands between
a float and its text: reading a literal goes from characters to a decimal and
from there to the nearest float, and printing goes the other way round.

Every finite float is a decimal exactly, because `2 ^ (-k)` is
`5 ^ k * 10 ^ (-k)`. `Decimal.exact` is that decimal, and all rounding to fewer
digits starts from it, so no step of printing works with an approximation.

Conversion to a float goes through the logical model of the float type. Both
directions are then ordinary functions on natural numbers and integers, which
the kernel can evaluate.

## Main definitions

* `Decimal`: A natural number of units of a power of ten.
* `Decimal.toFloat`: The float nearest to a decimal.
* `Decimal.exact`: The decimal equal to `mantissa * 2 ^ exponent`.
* `Decimal.digitChars`: The digits of a decimal as characters.
* `Decimal.place`: The power of ten of the leading digit.
* `Decimal.trim`: The same decimal without final zeros.
-/

namespace ZPlane

/-- The number `digits * 10 ^ exponent`. -/
structure Decimal where
  digits : Nat
  exponent : Int
deriving DecidableEq

namespace Decimal

/-- The float nearest to the decimal, where a tie goes to the even neighbour
    and a decimal beyond the largest float gives infinity. -/
def toFloat (d : Decimal) : Float :=
  .ofModel (.ofScientific d.digits d.exponent)

/-- The decimal equal to `mantissa * 2 ^ exponent`. A negative power of two is
    a power of five in units of the same power of ten. -/
def exact (mantissa : Nat) (exponent : Int) : Decimal :=
  if 0 ≤ exponent then
    ⟨mantissa * Nat.pow 2 exponent.toNat, 0⟩
  else
    ⟨mantissa * Nat.pow 5 (-exponent).toNat, exponent⟩

/-- The digits as characters, most significant first. -/
def digitChars (d : Decimal) : List Char :=
  Nat.toDigits 10 d.digits

/-- The power of ten that the leading digit stands for. -/
def place (d : Decimal) : Int :=
  d.digitChars.length - 1 + d.exponent

/-- The same number with every final zero moved into the exponent. -/
def trim (d : Decimal) : Decimal :=
  if d.digits ≠ 0 ∧ d.digits % 10 = 0 then
    trim ⟨d.digits / 10, d.exponent + 1⟩
  else
    d
termination_by d.digits
decreasing_by
  omega

/-- The decimal written as a digit string with `fraction` after its point. -/
def ofDigits (whole fraction : List Char) : Decimal :=
  ⟨Nat.ofDigitChars 10 (whole ++ fraction) 0, -fraction.length⟩

end Decimal

end ZPlane
