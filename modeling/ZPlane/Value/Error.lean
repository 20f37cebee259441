import ZPlane.Expr.Basic

/-!
# Failures of Evaluation

What can go wrong when an expression is evaluated. Each cause carries what is
needed to name it, and `RuntimeError.message` is the one place where it is
worded.

## Main definitions

* `RuntimeError`: Why an expression has no value.
* `RuntimeError.message`: The wording of a failure.
-/

namespace ZPlane

/-- Why an expression has no value. -/
inductive RuntimeError
  /-- A name that is not bound. -/
  | unknownVariable (name : String)
  /-- An assignment to a name that is bound already. -/
  | rebind (name : String)
  /-- A call of something that is a number, given by its text. -/
  | notCallable (callee : String)
  /-- A quotient by zero, or a power of zero that would be one. -/
  | divisionByZero
  /-- An operator that does not act on values. -/
  | invalidOperand (op : Operator)
  /-- An assignment whose left side, given by its text, is no name. -/
  | invalidAssignmentTarget (target : String)
deriving DecidableEq

namespace RuntimeError

/-- The wording of a failure. -/
def message : RuntimeError → String
  | .unknownVariable name => "Unknown variable \"" ++ name ++ "\""
  | .rebind name => name ++ " is already bound"
  | .notCallable callee => callee ++ " is not callable"
  | .divisionByZero => "Division by zero"
  | .invalidOperand op => "Invalid operand: '" ++ op.symbol ++ "' is not an arithmetic operator"
  | .invalidAssignmentTarget target => target ++ " is not a variable"

end RuntimeError

end ZPlane
