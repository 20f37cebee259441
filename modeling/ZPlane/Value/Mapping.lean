import ZPlane.Complex.Power
import ZPlane.Value.Error

/-!
# Mappings of the Plane

The functions of the language map complex numbers to complex numbers. A mapping
is kept as the way it was built: a primitive of the host, a constant, a
composition, or two mappings joined by an operator pointwise. It does nothing
until it is applied, so building one never fails, and a division by zero inside
it shows at the points where it occurs.

## Main definitions

* `Arith.apply?`: An operator on two numbers, unless it divides by zero.
* `Mapping`: A function of the plane.
* `Mapping.apply`: The value of a mapping at a point.
* `Mapping.name`: How a mapping is called in messages.
-/

namespace ZPlane

/-- An operator on two numbers. It has no value where it divides by zero. -/
def Arith.apply? : Arith → Complex → Complex → Option Complex
  | .add, z, w => some (z + w)
  | .sub, z, w => some (z - w)
  | .mul, z, w => some (z * w)
  | .div, z, w => z.div? w
  | .pow, z, w => z.pow? w

/-- An operator on two numbers, where a missing value is a division by zero. -/
def Arith.apply (a : Arith) (z w : Complex) : Except RuntimeError Complex :=
  match a.apply? z w with
  | some v => .ok v
  | none => .error .divisionByZero

/-- A function of the plane. -/
inductive Mapping
  /-- A function that the host brings along under a name. -/
  | primitive (name : String) (body : Complex → Except RuntimeError Complex)
  /-- The function with one value everywhere. -/
  | constant (value : Complex)
  /-- The function that applies `inner` first and `outer` to the result. -/
  | compose (outer inner : Mapping)
  /-- The function that joins the values of two functions. -/
  | pointwise (a : Arith) (left right : Mapping)

namespace Mapping

/-- The value at a point. Where both parts of a pointwise mapping fail, the
    failure of the left one shows. -/
def apply : Mapping → Complex → Except RuntimeError Complex
  | .primitive _ body, z => body z
  | .constant value, _ => .ok value
  | .compose outer inner, z => do
    let w ← inner.apply z
    outer.apply w
  | .pointwise a left right, z => do
    let l ← left.apply z
    let r ← right.apply z
    a.apply l r

/-- How the mapping is called in messages. -/
def name : Mapping → String
  | .primitive name _ => name
  | .constant value => value.text
  | .compose outer inner => outer.name ++ "(" ++ inner.name ++ ")"
  | .pointwise a left right =>
    "(" ++ a.symbol ++ " " ++ left.name ++ " " ++ right.name ++ ")"

/-- A primitive that has a value at every point. -/
def total (name : String) (body : Complex → Complex) : Mapping :=
  .primitive name fun z => .ok (body z)

end Mapping

end ZPlane
