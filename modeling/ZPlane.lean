import ZPlane.Main
import ZPlane.Proofs.Parser.Language
import ZPlane.Proofs.Float.Packing
import ZPlane.Proofs.Decimal.ReadBack
import ZPlane.Proofs.Shader.Reader
import ZPlane.Proofs.Shader.Literal
import ZPlane.Proofs.Shader.Rules
import ZPlane.Proofs.Evaluation.Meaning
import ZPlane.Proofs.Program
import ZPlane.Proofs.Shader.Agreement
import ZPlane.Proofs.Evaluation.Assignment
import ZPlane.Proofs.Evaluation.Pointwise
import ZPlane.Proofs.Evaluation.Alike
import ZPlane.Proofs.Evaluation.Identity
import ZPlane.Proofs.Session.Idle
import ZPlane.Proofs.Parser.Grouping
import ZPlane.Proofs.Shader.Acceptance
import ZPlane.Proofs.Session.Conversation
import ZPlane.Proofs.Session.Source
import ZPlane.Proofs.Evaluation.Independence
import ZPlane.Proofs.Token.Numerals
import ZPlane.Proofs.Parser.Image
import ZPlane.Proofs.Text.Replacement
import ZPlane.Proofs.Shader.Lexemes
import ZPlane.Proofs.Shader.Splicing
import ZPlane.Proofs.Shader.Closed
import ZPlane.Proofs.Token.Longest
import ZPlane.Proofs.Float.Neutral
import ZPlane.Proofs.Token.Tiling
import ZPlane.Proofs.Complex.ReadBack
import ZPlane.Proofs.Parser.Refusal
import ZPlane.Proofs.Parser.Completion
import ZPlane.Proofs.Parser.Location
import ZPlane.Proofs.Token.Reads
import ZPlane.Proofs.Token.Failure
import ZPlane.Proofs.Token.Layout
import ZPlane.Proofs.Parser.Layout
import ZPlane.Proofs.Evaluation.Growth
import ZPlane.Proofs.Evaluation.Locality
import ZPlane.Proofs.Evaluation.Faults
import ZPlane.Proofs.Session.Parts
import ZPlane.Proofs.Shader.Rejection
import ZPlane.Proofs.Shader.Verbatim
import ZPlane.Proofs.Evaluation.Histories
import ZPlane.Proofs.Evaluation.Sharing
import ZPlane.Proofs.Expr.Bracketed
import ZPlane.Proofs.Shader.Growth
import ZPlane.Proofs.Complex.Power
import ZPlane.Proofs.Complex.Division
