import ZPlane.Expr.Parse
import ZPlane.Shader.Emit
import ZPlane.Value.Error

/-!
# Errors

Whatever can go wrong between a text and its meaning, with the stage at which it
did. An error is shown under the name of its stage.

A command line shows an error as a chain, each link being the cause of the one
before it. The link under an error is the same failure without the name of its
stage.

## Main definitions

* `Error`: A failure of any stage.
* `Error.message`: The failure under the name of its stage.
* `Error.chain`: The failure and its causes.
-/

namespace ZPlane

/-- A failure of any stage. -/
inductive Error
  | scan (e : ScanError)
  | parse (e : ParseError)
  | runtime (e : RuntimeError)
  | shader (e : ShaderError)
deriving DecidableEq

namespace Error

/-- The name of the stage that failed. -/
def stage : Error → String
  | .scan _ => "Scan error"
  | .parse _ => "Parse error"
  | .runtime _ => "Runtime error"
  | .shader _ => "Shader error"

/-- The failure in the words of its stage. -/
def cause : Error → String
  | .scan e => e.message
  | .parse e => e.message
  | .runtime e => e.message
  | .shader e => e.message

/-- The failure under the name of its stage. -/
def message (e : Error) : String :=
  e.stage ++ ": " ++ e.cause

/-- The failure and its causes, outermost first. -/
def chain (e : Error) : List String :=
  [e.message, e.cause]

end Error

end ZPlane
