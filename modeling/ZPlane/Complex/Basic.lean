/-!
# Complex Numbers

A complex number is a pair of floats. The formulas are the schoolbook ones,
each evaluated as written: floats are not associative and zeros have signs, so
the order of the operations is part of the definition.

A quotient is the only basic operation that can fail. Dividing by zero has no
value, rather than a pair of infinities or NaNs. Any other divisor is divided
by, also one whose square overflows or underflows.

Two notions of equality are in use. Equality of structures tells zeros of
different sign apart; `==` is equality of numbers, where zeros are equal and a
NaN differs from itself.

## Main definitions

* `Complex`: A real and an imaginary part.
* `Complex.isZero`: Whether both parts are zero.
* `Complex.conj`: The conjugate.
* `Complex.inv`: The reciprocal.
* `Complex.div?`: The quotient, unless the divisor is zero.
-/

namespace ZPlane

/-- The number `re + im * i`. -/
structure Complex where
  re : Float
  im : Float
deriving DecidableEq

namespace Complex

/-- Numbers are equal when both parts are equal as floats. -/
instance : BEq Complex :=
  ⟨fun z w => z.re == w.re && z.im == w.im⟩

/-- A real number as a complex one. -/
def ofReal (x : Float) : Complex :=
  ⟨x, 0⟩

/-- The number `0`. -/
def zero : Complex :=
  ⟨0, 0⟩

/-- The number `1`. -/
def one : Complex :=
  ⟨1, 0⟩

/-- The imaginary unit. -/
def i : Complex :=
  ⟨0, 1⟩

/-- Whether both parts are zero, of either sign. -/
def isZero (z : Complex) : Bool :=
  z.re == 0 && z.im == 0

/-- The sum, part by part. -/
protected def add (z w : Complex) : Complex :=
  ⟨z.re + w.re, z.im + w.im⟩

/-- The difference, part by part. -/
protected def sub (z w : Complex) : Complex :=
  ⟨z.re - w.re, z.im - w.im⟩

/-- The product. -/
protected def mul (z w : Complex) : Complex :=
  ⟨z.re * w.re - z.im * w.im, z.re * w.im + z.im * w.re⟩

/-- The negative, which also turns the sign of a zero part. -/
protected def neg (z : Complex) : Complex :=
  ⟨-z.re, -z.im⟩

instance : Add Complex := ⟨Complex.add⟩

instance : Sub Complex := ⟨Complex.sub⟩

instance : Mul Complex := ⟨Complex.mul⟩

instance : Neg Complex := ⟨Complex.neg⟩

/-- The conjugate. -/
def conj (z : Complex) : Complex :=
  ⟨z.re, -z.im⟩

/-- The square of the modulus, which may overflow or underflow. -/
def normSq (z : Complex) : Float :=
  z.re * z.re + z.im * z.im

/-- The reciprocal, as the conjugate over the square of the modulus. -/
def inv (z : Complex) : Complex :=
  ⟨z.re / z.normSq, -z.im / z.normSq⟩

/-- The quotient by the formula alone, whatever the divisor. -/
def quotient (z w : Complex) : Complex :=
  ⟨(z.re * w.re + z.im * w.im) / w.normSq, (z.im * w.re - z.re * w.im) / w.normSq⟩

/-- The quotient, which a zero divisor does not have. -/
def div? (z w : Complex) : Option Complex :=
  if w.isZero then none else some (z.quotient w)

end Complex

end ZPlane
