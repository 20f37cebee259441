import ZPlane.Value.Mapping

/-!
# Values

A value is a number or a callable, and a callable is a mapping with an identity.
Two callables are the same when they have the same identity, however alike their
mappings are: there is no telling whether two functions agree everywhere, but
whether both came from one construction is plain. Whoever builds a callable
hands it an identity that no other one has.

## Main definitions

* `Callable`: A mapping with an identity.
* `Value`: A number or a callable.
* `Value.mapping`: A value as a mapping, where a number is a constant one.
* `Value.ceiling`: The first number that is above the identity of a value.
-/

namespace ZPlane

/-- A mapping with the identity that it was built under. -/
structure Callable where
  identity : Nat
  mapping : Mapping

namespace Callable

/-- Callables are the same when they were built as one. -/
instance : BEq Callable :=
  ⟨fun f g => f.identity == g.identity⟩

/-- The callable as it is shown to a programmer. -/
def inspect (c : Callable) : String :=
  "Callable \x7b name: \"" ++ c.mapping.name ++ "\", body: \"Function Pointer\" \x7d"

end Callable

/-- A number or a callable. -/
inductive Value
  | number (z : Complex)
  | callable (c : Callable)

namespace Value

/-- Numbers are compared as numbers and callables by identity. -/
protected def beq : Value → Value → Bool
  | .number z, .number w => z == w
  | .callable f, .callable g => f == g
  | _, _ => false

instance : BEq Value := ⟨Value.beq⟩

/-- The value as it is shown in a session. -/
def text : Value → String
  | .number z => z.text
  | .callable _ => "[Function]"

/-- Whether the value is a number. -/
def isNumber : Value → Bool
  | .number _ => true
  | .callable _ => false

/-- The value as a mapping, where a number is the constant one. -/
def mapping : Value → Mapping
  | .number z => .constant z
  | .callable c => c.mapping

/-- The first number above the identity of a callable. A number has no identity
    and is below all of them. -/
def ceiling : Value → Nat
  | .number _ => 0
  | .callable c => c.identity + 1

end Value

end ZPlane
