import ZPlane.CommandLine

/-!
# The Program

Reads words, files and the terminal, and writes what `Command.run` says. A
conversation is served line by line, so that an answer appears before the next
line is typed.
-/

namespace ZPlane

/-- How the program is called. -/
def usage : String :=
  "Usage: complot [-v] file PATH | repl [--tree-marker CHAR] | shader EXPRESSION | fragment PATH\n"

/-- The bytes of a file. -/
def readFile (path : String) : IO (Except FileError (List UInt8)) := do
  try
    return .ok (← IO.FS.readBinFile path).toList
  catch
    | .noFileOrDirectory .. => return .error .missing
    | .inappropriateType .. => return .error .isDirectory
    | e => return .error (.other (toString e))

/-- The bytes of a stream up to the next line feed, or none at its end. -/
partial def readLine (stream : IO.FS.Stream) (line : List UInt8) : IO (List UInt8) := do
  match (← stream.read 1).toList with
  | [] => return line.reverse
  | byte :: _ =>
    if byte == 10 then return (byte :: line).reverse
    else readLine stream (byte :: line)

/-- Serves a terminal line by line. -/
partial def serve (s : Session) : IO Unit := do
  IO.print Session.defaultPrompt
  (← IO.getStdout).flush
  let bytes ← readLine (← IO.getStdin) []
  if bytes.isEmpty then
    IO.print Session.farewell
  else
    match Text.decode bytes with
    | none => IO.eprint (Command.promptFailure .invalidEncoding)
    | some line =>
      let (reply, s') := s.answer line
      IO.print reply.output
      IO.eprint reply.errors
      serve s'

/-- Writes what a call wrote and hands on its exit code. -/
def report (o : Outcome) : IO UInt32 := do
  IO.print o.transcript.output
  IO.eprint o.transcript.errors
  return o.code.toUInt32

/-- Carries out a command. -/
def carryOut : Command → IO UInt32
  | .repl marker => do
    serve (Session.new marker)
    return 0
  | .shader expression => report (Command.runShader expression)
  | .file path => do
    let content ← readFile path
    report (Command.runFile (fun _ => content) path)
  | .fragment path => do
    let content ← readFile path
    report (Command.runFragment (fun _ => content) path)

end ZPlane

/-- The program. -/
def main (words : List String) : IO UInt32 := do
  match ZPlane.Invocation.ofWords? words with
  | some invocation => ZPlane.carryOut invocation.command
  | none =>
    IO.eprint ZPlane.usage
    return ZPlane.Outcome.usageCode.toUInt32
