import ZPlane.Complex.Basic
import ZPlane.Decimal.Text

/-!
# Text of Complex Numbers

A number is written as a sum of a real part and a multiple of `i`, leaving out
what is zero and a unit coefficient: `0`, `2.5`, `i`, `-i`, `3-2i`, `1+i`. The
text is an expression of the language that denotes the number, wherever `i` is
the imaginary unit.

## Main definitions

* `Complex.text`: The number as an expression.
-/

namespace ZPlane

namespace Complex

/-- The real part, left out when it is zero. -/
def realText (z : Complex) : String :=
  if z.re == 0 then "" else Layout.result.write z.re

/-- A positive coefficient of `i`, left out when it is one. -/
def unitText (b : Float) : String :=
  (if b == 1 then "" else Layout.result.write b) ++ "i"

/-- The imaginary part with the sign that joins it to the real part, left out
    when it is zero. -/
def imaginaryText (z : Complex) : String :=
  if z.im == 0 then ""
  else if z.im < 0 then "-" ++ unitText (-z.im)
  else if z.re == 0 then unitText z.im
  else "+" ++ unitText z.im

/-- The number as an expression. -/
def text (z : Complex) : String :=
  if z.isZero then "0" else z.realText ++ z.imaginaryText

end Complex

end ZPlane
