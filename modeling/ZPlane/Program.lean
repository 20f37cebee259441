import ZPlane.Error
import ZPlane.Evaluation

/-!
# What a Text Denotes

A text denotes an expression, and through it a value in a workspace and an
expression of the shading language. Each function here runs the stages in order
and stops at the first that fails.

## Main definitions

* `parse`: The expression of a text.
* `evaluate`: The value of a text.
* `shaderText`: The shader text of a text.
-/

namespace ZPlane

/-- The expression that a text denotes. -/
def parse (text : String) : Except Error Expr :=
  match Token.scan text with
  | .error e => .error (.scan e)
  | .ok tokens => (Expr.ofTokens tokens).mapError .parse

/-- The value of a text in a workspace. A text that is no expression leaves the
    workspace alone. -/
def evaluate (text : String) : EStateM Error Workspace Value := fun w =>
  match parse text with
  | .error e => .error e w
  | .ok e =>
    match e.eval w with
    | .ok value w' => .ok value w'
    | .error e w' => .error (.runtime e) w'

/-- The shader text of an expression, as a stage. -/
def emitShader (e : Expr) : Except Error String :=
  (Shader.text e).mapError .shader

/-- The shader text of a text. -/
def shaderText (text : String) : Except Error String := do
  emitShader (← parse text)

end ZPlane
