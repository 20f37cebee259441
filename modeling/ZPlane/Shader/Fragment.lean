import ZPlane.Shader.Emit
import ZPlane.Text.Replace

/-!
# Fragment Shaders

A fragment shader colours each point `z` of the plane by the value of an
expression there: the argument gives the hue and the modulus the shade. Every
other name in the expression becomes a uniform, which the host sets before it
draws. Uniforms are spelled with `u_` in front, so that no name of the
expression can meet a word of the shading language or of the template.

The shader is a template with two holes. The declarations are filled in first,
everywhere, and the expression second, also everywhere.

## Main definitions

* `Shader.spelling`: How a name is spelled in a fragment shader.
* `Shader.uniforms`: The declarations for an expression.
* `Shader.template`: The shader around declarations and expression.
* `Shader.fragment`: The fragment shader for an expression.
-/

namespace ZPlane

namespace Shader

/-- The name of the point being coloured. -/
def coordinate : String := "z"

/-- How a name is spelled in a fragment shader: the point keeps its name, and
    any other name is a uniform. -/
def spelling (name : String) : String :=
  if name = coordinate then name else "u_" ++ name

/-- The declaration of the uniform for a name. -/
def declaration (name : String) : String :=
  "uniform vec2 " ++ spelling name ++ ";\n"

/-- The declarations of the uniforms of an expression, in the order in which its
    names are first used. -/
def uniforms (e : Expr) : String :=
  String.join ((e.names.filter (· ≠ coordinate)).map declaration)

/-- The hole for the declarations. -/
def uniformsHole : String := "\x7b\x7buniforms\x7d\x7d"

/-- The hole for the expression. -/
def expressionHole : String := "\x7b\x7bexpression\x7d\x7d"

/-- The template up to the hole for the declarations. -/
def preamble : String :=
  "precision mediump float;\n\nvarying vec2 z;\n"

/-- The template between the two holes. -/
def middle : String :=
  "\nvec3 hue(float turn) \x7b\n" ++
  "\treturn clamp(abs(mod(turn * 6.0 + vec3(0.0, 4.0, 2.0), 6.0) - 3.0) - 1.0, 0.0, 1.0);\n" ++
  "\x7d\n\nvoid main() \x7b\n\tvec2 w = "

/-- The template after the hole for the expression. -/
def closing : String :=
  ";\n\tfloat shade = 1.0 - 1.0 / (1.0 + length(w));\n" ++
  "\tgl_FragColor = vec4(hue(atan(w.y, w.x) / 6.28318530718) * shade, 1.0);\n\x7d\n"

/-- The shader with its holes. -/
def template : String :=
  preamble ++ uniformsHole ++ middle ++ expressionHole ++ closing

/-- Fills a hole wherever it occurs. -/
def fill (hole content text : String) : String :=
  String.ofList (Text.replaceAll hole.toList content.toList text.toList)

/-- The fragment shader for an expression. -/
def fragment (e : Expr) : Except ShaderError String := do
  let body ← emit spelling e
  return fill expressionHole body (fill uniformsHole (uniforms e) template)

end Shader

end ZPlane
