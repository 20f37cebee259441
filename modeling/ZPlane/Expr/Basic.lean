import ZPlane.Complex.Text

/-!
# Expressions

An expression is a literal, a name, or an operation on two expressions. The
operators are the five of arithmetic, assignment and call; arithmetic is a type
of its own, because only those operators act on values.

Expressions are also built by hand, and nothing in the type keeps assignment at
the top or a name on its left. What is read from text has that shape, and the
evaluator checks it again.

## Main definitions

* `Arith`: An arithmetic operator.
* `Operator`: An arithmetic operator, assignment or call.
* `Expr`: An expression.
* `Expr.text`: An expression in fully bracketed form, operator first.
* `Expr.names`: The names in an expression, in the order of their first use.
* `Expr.size`: The number of operations in an expression.
-/

namespace ZPlane

/-- An arithmetic operator. -/
inductive Arith
  | add
  | sub
  | mul
  | div
  | pow
deriving DecidableEq

/-- The operator of an operation. -/
inductive Operator
  | arith (a : Arith)
  | assign
  | call
deriving DecidableEq

/-- The symbol of an arithmetic operator. -/
def Arith.symbol : Arith → String
  | .add => "+"
  | .sub => "-"
  | .mul => "*"
  | .div => "/"
  | .pow => "^"

/-- The symbol of an operator. A call has none in the language and is shown by
    its name. -/
def Operator.symbol : Operator → String
  | .arith a => a.symbol
  | .assign => "="
  | .call => "call"

/-- An expression. -/
inductive Expr
  | literal (value : Complex)
  | name (x : String)
  | operation (op : Operator) (left right : Expr)
deriving DecidableEq

namespace Expr

/-- Equality of expressions, where literals are compared as numbers. -/
protected def beq : Expr → Expr → Bool
  | .literal z, .literal w => z == w
  | .name x, .name y => x == y
  | .operation op l r, .operation op' l' r' => op == op' && l.beq l' && r.beq r'
  | _, _ => false

instance : BEq Expr := ⟨Expr.beq⟩

/-- The expression with its operators first and every operation in
    brackets. -/
def text : Expr → String
  | .literal z => z.text
  | .name x => x
  | .operation op l r => "(" ++ op.symbol ++ " " ++ l.text ++ " " ++ r.text ++ ")"

/-- Adds the names of an expression to those already seen, each the first time
    it is met from left to right. -/
def addNames (seen : List String) : Expr → List String
  | .literal _ => seen
  | .name x => if seen.contains x then seen else seen ++ [x]
  | .operation _ l r => r.addNames (l.addNames seen)

/-- The names in an expression, assigned and called ones included, each once and
    in the order of its first use. -/
def names (e : Expr) : List String :=
  e.addNames []

/-- The number of operations in an expression. -/
def size : Expr → Nat
  | .literal _ => 0
  | .name _ => 0
  | .operation _ l r => l.size + r.size + 1

end Expr

end ZPlane
