import ZPlane.Program
import ZPlane.Shader.Fragment
import ZPlane.Text.Lines

/-!
# The Text in an Editor

An editor hands over its text whenever it changes. A text is accepted when it has
a line that is not blank and every such line has shader text; the last of them is
then what is drawn. A text that is not accepted changes nothing, so that a
picture stays up while a line is being typed.

The expression and the shader text of that line are kept beside the text. The
fragment shader is made from the expression whenever it is asked for.

## Main definitions

* `Shader.Editor`: The last accepted text, with what its last line was compiled
  to.
* `Shader.Editor.compileLine`: The expression and shader text of a line.
* `Shader.Editor.change`: Hands over a text.
-/

namespace ZPlane

namespace Shader

/-- The last accepted text, and what its last line was compiled to. -/
structure Editor where
  text : String
  expr : Option Expr
  /-- The shader text of the last accepted text. -/
  shader : Option String

namespace Editor

/-- The state before any text was handed over. -/
def initial : Editor :=
  ⟨"", none, none⟩

/-- The expression and shader text of a line. -/
def compileLine (line : String) : Except Error (Expr × String) := do
  let e ← parse line
  return (e, ← emitShader e)

/-- The expressions and shader texts of lines, up to the first failure. -/
def compileLines (lines : List String) : Except Error (List (Expr × String)) :=
  lines.mapM compileLine

/-- The expression and shader text of the last line of a text that is not
    blank. -/
def compile (text : String) : Except Error (Expr × String) := do
  match (← compileLines (Text.contentLines text)).getLast? with
  | some last => return last
  | none => .error (.parse ⟨1, .expectedExpression⟩)

/-- Hands over a text. The answer is its shader text, and on failure the state
    stays. -/
def change (editor : Editor) (text : String) : Except Error String × Editor :=
  match compile text with
  | .ok (e, shader) => (.ok shader, ⟨text, some e, some shader⟩)
  | .error e => (.error e, editor)

/-- The fragment shader of the last accepted text. -/
def fragment (editor : Editor) : Option String :=
  editor.expr.bind fun e => (Shader.fragment e).toOption

end Editor

end Shader

end ZPlane
