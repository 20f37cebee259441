import ZPlane.Program
import ZPlane.Text.Lines

/-!
# Sessions

A session runs lines one after another in one workspace. A line is evaluated, and
its answer is the text of the value. A line that starts with the marker is not
evaluated, and its answer is the expression in bracketed form.

A source is run line by line up to the first failure. What was bound before it
stays bound.

## Main definitions

* `Session`: A workspace and the marker.
* `Session.runLine`: Runs one line.
* `Session.runSource`: Runs the lines of a text.
-/

namespace ZPlane

/-- A workspace with the character that marks lines to be shown and not
    evaluated. -/
structure Session where
  workspace : Workspace
  marker : Char

namespace Session

/-- A session that knows the constants and functions of the language. -/
def new (marker : Char) : Session :=
  ⟨.standard, marker⟩

/-- The marker of a session that does not choose one. -/
def defaultMarker : Char := ','

/-- The rest of a line that starts with the marker. -/
def marked? (s : Session) (line : String) : Option String :=
  match line.toList with
  | c :: rest => if c = s.marker then some (String.ofList rest) else none
  | [] => none

/-- Runs one line and answers with what is to be shown. -/
def runLine (s : Session) (line : String) : Except Error String × Session :=
  match s.marked? line with
  | some source => ((parse source).map Expr.text, s)
  | none =>
    match evaluate line s.workspace with
    | .ok value workspace => (.ok value.text, { s with workspace })
    | .error e workspace => (.error e, { s with workspace })

/-- Runs lines up to the first failure. -/
def runLines (s : Session) : List String → Except Error (List String) × Session
  | [] => (.ok [], s)
  | line :: rest =>
    match s.runLine line with
    | (.error e, s') => (.error e, s')
    | (.ok answer, s') =>
      let (answers, s'') := s'.runLines rest
      (answers.map (answer :: ·), s'')

/-- Runs the lines of a text that are not blank. -/
def runSource (s : Session) (source : String) : Except Error (List String) × Session :=
  s.runLines (Text.contentLines source)

end Session

end ZPlane
