import ZPlane.Complex.Basic

/-!
# Elementary Functions

Modulus and argument, exponential and logarithm, square root and the circular
functions, each by its formula over the real functions of the same name.

The square root treats the two axes apart. On them it is exact in each part,
and it is continuous from the side that the sign of a zero imaginary part
names. Off the axes it halves the argument.

## Main definitions

* `hypot`: The root of the sum of two squares.
* `Complex.norm`: The modulus.
* `Complex.arg`: The argument.
* `Complex.ofPolar`: The number with a given modulus and argument.
* `Complex.exp`, `Complex.log`: Exponential and principal logarithm.
* `Complex.sqrt`: The principal square root.
* `Complex.sin`, `Complex.cos`, `Complex.tan`: The circular functions.
-/

namespace ZPlane

/-- Whether the sign bit is set, which tells `-0.0` from `0.0`. -/
def signBit (x : Float) : Bool :=
  x.toBits >>> 63 == 1

/-- The root of the sum of two squares, rounded once: both squares and their sum
    are exact. An infinite operand makes the result infinite, even beside a
    NaN. -/
def hypot (x y : Float) : Float :=
  match x.toModel.unpack, y.toModel.unpack with
  | .infinity _, _ => x.abs
  | _, .infinity _ => y.abs
  | .notANumber, _ => x
  | _, .notANumber => y
  | .zero _, _ => y.abs
  | _, .zero _ => x.abs
  | .finite _ m e _, .finite _ n f _ =>
    -- Both mantissas in units of the smaller exponent.
    let unit := min e f
    let a := m <<< (e - unit).toNat
    let b := n <<< (f - unit).toNat
    let (root, exponent, accuracy) :=
      Float.Model.UnpackedFloat.sqrtCore .binary64 (a * a + b * b) (2 * unit)
    .ofModel (.pack (.roundWithAccuracy .binary64 .positive root exponent accuracy))

namespace Complex

/-- The modulus. -/
def norm (z : Complex) : Float :=
  hypot z.re z.im

/-- The argument, between `-π` and `π`. -/
def arg (z : Complex) : Float :=
  Float.atan2 z.im z.re

/-- The number with modulus `r` and argument `t`. -/
def ofPolar (r t : Float) : Complex :=
  ⟨r * t.cos, r * t.sin⟩

/-- The exponential. An infinite real part is taken apart, since the modulus is
    then `0` or infinite and the argument may have no direction. -/
def exp (z : Complex) : Complex :=
  if z.re.isInf && z.re < 0 && !z.im.isFinite then zero
  else if z.re.isInf && z.re > 0 && (z.im == 0 || !z.im.isFinite) then
    ⟨z.re, if z.im.isInf then 0 / 0 else z.im⟩
  else if z.re.isNaN && z.im == 0 then z
  else ofPolar z.re.exp z.im

/-- The principal logarithm. -/
def log (z : Complex) : Complex :=
  ⟨z.norm.log, z.arg⟩

/-- The principal square root. -/
def sqrt (z : Complex) : Complex :=
  if z.im == 0 then
    if signBit z.re then
      let root := (-z.re).sqrt
      ⟨0, if signBit z.im then -root else root⟩
    else
      ⟨z.re.sqrt, z.im⟩
  else if z.re == 0 then
    let part := (z.im.abs / 2).sqrt
    ⟨part, if signBit z.im then -part else part⟩
  else
    ofPolar z.norm.sqrt (z.arg / 2)

/-- The sine. -/
def sin (z : Complex) : Complex :=
  ⟨z.re.sin * z.im.cosh, z.re.cos * z.im.sinh⟩

/-- The cosine. -/
def cos (z : Complex) : Complex :=
  ⟨z.re.cos * z.im.cosh, -z.re.sin * z.im.sinh⟩

/-- The tangent, by the double angle. -/
def tan (z : Complex) : Complex :=
  let a := z.re + z.re
  let b := z.im + z.im
  let divisor := a.cos + b.cosh
  ⟨a.sin / divisor, b.sinh / divisor⟩

end Complex

end ZPlane
