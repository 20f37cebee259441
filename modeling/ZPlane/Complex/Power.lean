import ZPlane.Complex.Elementary

/-!
# Powers

A power with a whole exponent is a product, found by repeated squaring, so that
powers of whole numbers are exact as long as they fit. A real power of a positive
real number stays real. Every other power is `exp (w * log z)` on the principal
branch.

Zero is a base of its own: `0 ^ 0` is `1`, an exponent with a positive real part
gives `0`, and for every other exponent there is no value, since it would be a
division by zero.

## Main definitions

* `Complex.powNat`: A natural power by repeated squaring.
* `Complex.powInt`: An integral power.
* `wholeExponent?`: The integer that a float is, if it is one of moderate size.
* `Complex.pow?`: The power, unless it is a division by zero.
-/

namespace ZPlane

namespace Complex

/-- Multiplies `acc` by `base ^ (n - 1)` for an odd `n`, squaring the base along
    the binary digits of `n`. -/
def powOdd (acc base : Complex) (n : Nat) : Complex :=
  if n ≤ 1 then acc
  else
    let square := base * base
    powOdd (if n / 2 % 2 = 1 then acc * square else acc) square (n / 2)
termination_by n

/-- The natural power. Factors of two of the exponent are squared away first, so
    that the product starts with a factor and not with `1`. -/
def powNat (z : Complex) (n : Nat) : Complex :=
  if n = 0 then one
  else if n % 2 = 0 then powNat (z * z) (n / 2)
  else powOdd z z n
termination_by n
decreasing_by omega

/-- The integral power, where a negative one is a power of the reciprocal. -/
def powInt (z : Complex) : Int → Complex
  | .ofNat n => z.powNat n
  | .negSucc n => z.inv.powNat (n + 1)

end Complex

/-- The integer equal to `x`, if there is one of magnitude at most
    `2 ^ 31 - 1`. -/
def wholeExponent? (x : Float) : Option Int :=
  let n := x.abs.toUInt32
  if n.toFloat == x.abs && n ≤ 2147483647 then
    some (if x < 0 then -n.toNat else n.toNat)
  else
    none

namespace Complex

/-- The power on the principal branch, where a zero exponent gives `1`. -/
def principalPow (z w : Complex) : Complex :=
  if w.isZero then one else (w * z.log).exp

/-- The power of a base other than zero. -/
def powNonzero (z w : Complex) : Complex :=
  if w.im == 0 then
    match wholeExponent? w.re with
    | some n => z.powInt n
    | none =>
      if z.im == 0 && z.re > 0 then ofReal (z.re.pow w.re) else z.principalPow w
  else
    z.principalPow w

/-- The power, which a zero base has only for a zero exponent or one with a
    positive real part. -/
def pow? (z w : Complex) : Option Complex :=
  if z.isZero then
    if w.isZero then some one
    else if w.re > 0 then some zero
    else none
  else
    some (z.powNonzero w)

end Complex

end ZPlane
