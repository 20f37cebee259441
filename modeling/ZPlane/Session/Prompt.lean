import ZPlane.Session.Basic

/-!
# The Prompt

A prompt asks for one line after another until the input ends. A line is taken
without the white space around it, and a blank one is passed over. Every other
line is answered by one record: on the output if it has an answer, on the errors
if it fails. A failure does not end the session.

The input is bytes. A line whose bytes are no text does end the session, without
a farewell, and the lines after it are never looked at.

`Session.answer` is what one line does, and `Session.converse` runs it over a
whole input, so that a terminal can be served line by line with the same
outcome.

## Main definitions

* `Transcript`: What a conversation wrote.
* `Session.answer`: What one line does.
* `Session.converse`: A conversation over a whole input.
-/

namespace ZPlane

/-- What a conversation wrote on its two streams. -/
structure Transcript where
  output : String
  errors : String

namespace Transcript

/-- Nothing written. -/
def empty : Transcript :=
  ⟨"", ""⟩

/-- One conversation after another. -/
def append (a b : Transcript) : Transcript :=
  ⟨a.output ++ b.output, a.errors ++ b.errors⟩

instance : Append Transcript := ⟨Transcript.append⟩

/-- Something written on the output. -/
def ofOutput (text : String) : Transcript :=
  ⟨text, ""⟩

/-- Something written on the errors. -/
def ofErrors (text : String) : Transcript :=
  ⟨"", text⟩

end Transcript

/-- A line of input whose bytes are no text. -/
inductive ReadError
  | invalidEncoding
deriving DecidableEq

namespace ReadError

/-- What could not be done. -/
def message : ReadError → String
  | .invalidEncoding => "Failed read line"

/-- Why it could not be done. -/
def cause : ReadError → String
  | .invalidEncoding => "stream did not contain valid UTF-8"

end ReadError

namespace Session

/-- The prompt of a session that does not choose one. -/
def defaultPrompt : String := "> "

/-- What is written when the input has ended. -/
def farewell : String := "\nExited complot repl\n"

/-- What a line without the white space around it does. -/
def answer (s : Session) (line : String) : Transcript × Session :=
  let line := Text.trim line
  if line.isEmpty then (.empty, s)
  else
    match s.runLine line with
    | (.ok text, s') => (.ofOutput (text ++ "\n"), s')
    | (.error e, s') => (.ofErrors (e.message ++ "\n"), s')

/-- A conversation over the lines of an input, with a prompt before each. -/
def converseLines (prompt : String) (s : Session) :
    List (List UInt8) → Transcript × Except ReadError Unit × Session
  | [] => (.ofOutput (prompt ++ farewell), .ok (), s)
  | bytes :: rest =>
    match Text.decode bytes with
    | none => (.ofOutput prompt, .error .invalidEncoding, s)
    | some line =>
      let (reply, s') := s.answer line
      let (transcript, ending, s'') := converseLines prompt s' rest
      (.ofOutput prompt ++ reply ++ transcript, ending, s'')

/-- A conversation over a whole input. -/
def converse (s : Session) (prompt : String) (input : List UInt8) :
    Transcript × Except ReadError Unit × Session :=
  converseLines prompt s (Text.byteLines input)

end Session

end ZPlane
