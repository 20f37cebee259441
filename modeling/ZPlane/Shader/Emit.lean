import ZPlane.Expr.Basic

/-!
# Shader Text

Sums, differences and products of complex numbers are written as expressions of
the shading language over `vec2`, the real part in `x` and the imaginary part in
`y`. The shading language has no complex product, so a product is spelled out
with both operands in each of its parts. The text of a product therefore holds
each operand four times and grows fast with the depth of products.

Other operators have no text. The operands come before the operator, so the
operator that is reported is the first one in the order in which an expression
is evaluated.

## Main definitions

* `ShaderError`: Why an expression has no shader text.
* `Shader.emit`: The shader text of an expression, for a spelling of names.
* `Shader.text`: The shader text of an expression with its names as they are.
-/

namespace ZPlane

/-- Why an expression has no shader text. -/
inductive ShaderError
  | unsupportedOperation (op : Operator)
deriving DecidableEq

/-- The wording of a failure. -/
def ShaderError.message : ShaderError → String
  | .unsupportedOperation op => "No generation rule for operator '" ++ op.symbol ++ "'"

namespace Shader

/-- A number as a vector. -/
def literal (z : Complex) : String :=
  "vec2(" ++ Layout.literal.write z.re ++ ", " ++ Layout.literal.write z.im ++ ")"

/-- A sum or difference, in parentheses. -/
def sum (symbol a b : String) : String :=
  "(" ++ a ++ symbol ++ b ++ ")"

/-- A product, with each part by its formula. -/
def product (a b : String) : String :=
  "vec2((" ++ a ++ ").x*(" ++ b ++ ").x-(" ++ a ++ ").y*(" ++ b ++ ").y, (" ++
    a ++ ").x*(" ++ b ++ ").y+(" ++ b ++ ").x*(" ++ a ++ ").y)"

/-- The text of an operation with its operands written already. -/
def operation : Operator → String → String → Except ShaderError String
  | .arith .add, a, b => .ok (sum "+" a b)
  | .arith .sub, a, b => .ok (sum "-" a b)
  | .arith .mul, a, b => .ok (product a b)
  | op, _, _ => .error (.unsupportedOperation op)

/-- The shader text of an expression whose names are spelled by `spell`. -/
def emit (spell : String → String) : Expr → Except ShaderError String
  | .literal z => .ok (literal z)
  | .name x => .ok (spell x)
  | .operation op left right => do
    let a ← emit spell left
    let b ← emit spell right
    operation op a b

/-- The shader text of an expression with its names as they are. -/
def text (e : Expr) : Except ShaderError String :=
  emit id e

end Shader

end ZPlane
