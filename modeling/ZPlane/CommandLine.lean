import ZPlane.Session.Prompt
import ZPlane.Shader.Editor

/-!
# The Command Line

The program is called with a command and its operands. `file` runs a source and
prints its answers if every line has one, `repl` holds a conversation, `shader`
prints the shader text of an expression, and `fragment` prints a fragment shader
for the last line of a file.

An option starts with a hyphen and may stand before or after the operands, until
`--` makes every later word an operand. A hyphen alone is an operand. The option
`-v` belongs to the call as a whole and is understood on either side of the
command, at most once on each.

Everything here is a function of the words, the readable files and the input.
Words that make no call have no meaning, which is told apart from a call that
fails.

## Main definitions

* `Command`: What the program is asked to do.
* `Invocation.ofWords?`: The call that words make.
* `Outcome`: An exit code and what was written.
* `Command.run`: What a command does.
-/

namespace ZPlane

/-- What the program is asked to do. -/
inductive Command
  | file (path : String)
  | repl (marker : Char)
  | shader (expression : String)
  | fragment (path : String)
deriving DecidableEq

/-- A call of the program. -/
structure Invocation where
  verbose : Bool
  command : Command
deriving DecidableEq

namespace Invocation

/-- The words after a command, sorted into options and operands. -/
structure Words where
  verbose : Bool
  marker : Option Char
  operands : List String

/-- Whether a word asks for more messages. -/
def isVerbose (word : String) : Bool :=
  word == "-v" || word == "--verbose"

/-- Whether a word is an option. -/
def isOption (word : String) : Bool :=
  word.toList.head? == some '-' && word != "-"

/-- The one character that a word consists of. -/
def character? (word : String) : Option Char :=
  match word.toList with
  | [c] => some c
  | _ => none

/-- The value of an option that is given in the same word, after an equals
    sign. -/
def attached? (option word : String) : Option String :=
  let start := (option ++ "=").toList
  if start.isPrefixOf word.toList then
    some (String.ofList (word.toList.drop start.length))
  else
    none

/-- The option that chooses the marker. -/
def markerOption : String := "--tree-marker"

/-- Takes the marker, which is one character and chosen at most once. -/
def Words.choose? (w : Words) (value : String) : Option Words :=
  match w.marker, character? value with
  | none, some c => some { w with marker := some c }
  | _, _ => none

/-- Sorts a word that stands on its own. -/
def Words.add? (w : Words) (marked : Bool) (word : String) : Option Words :=
  if isVerbose word then
    if w.verbose then none else some { w with verbose := true }
  else
    match marked, attached? markerOption word with
    | true, some value => w.choose? value
    | _, _ => if isOption word then none else some { w with operands := w.operands ++ [word] }

/-- Sorts the words after a command, where `marked` says whether the command has
    a marker. -/
def sort? (marked : Bool) (w : Words) : List String → Option Words
  | [] => some w
  | word :: rest =>
    if word = "--" then
      some { w with operands := w.operands ++ rest }
    else if marked ∧ word = markerOption then
      match rest with
      | [] => none
      | value :: rest => if isOption value then none else do sort? marked (← w.choose? value) rest
    else do
      sort? marked (← w.add? marked word) rest

/-- The only operand. -/
def Words.operand? (w : Words) : Option String :=
  match w.operands with
  | [word] => some word
  | _ => none

/-- The only operand, which names a file and so is not empty. -/
def Words.path? (w : Words) : Option String :=
  w.operand?.filter fun path => !path.isEmpty

/-- The command that a word and the words after it make. -/
def command? (name : String) (rest : List String) : Option (Bool × Command) := do
  let w ← sort? (name == "repl") ⟨false, none, []⟩ rest
  let command ←
    match name with
    | "file" => w.path?.map .file
    | "fragment" => w.path?.map .fragment
    | "shader" => w.operand?.map .shader
    | "repl" =>
      if w.operands.isEmpty then some (.repl (w.marker.getD Session.defaultMarker)) else none
    | _ => none
  return (w.verbose, command)

/-- The call that words make, if they make one. -/
def ofWords? : List String → Option Invocation
  | [] => none
  | word :: rest =>
    if isVerbose word then
      match rest with
      | [] => none
      | name :: rest => (command? name rest).map fun (_, command) => ⟨true, command⟩
    else
      (command? word rest).map fun (verbose, command) => ⟨verbose, command⟩

end Invocation

/-- Why a file could not be read. -/
inductive FileError
  | missing
  | isDirectory
  | invalidEncoding
  /-- Any other reason, in the words of the system. -/
  | other (reason : String)
deriving DecidableEq

/-- The wording of a failure to read a file. -/
def FileError.message : FileError → String
  | .missing => "No such file or directory (os error 2)"
  | .isDirectory => "Is a directory (os error 21)"
  | .invalidEncoding => "stream did not contain valid UTF-8"
  | .other reason => reason

/-- An exit code and what was written. -/
structure Outcome where
  code : Nat
  transcript : Transcript

namespace Outcome

/-- The exit code of words that make no call. -/
def usageCode : Nat := 2

/-- A call that wrote its results. -/
def success (output : String) : Outcome :=
  ⟨0, .ofOutput output⟩

/-- A call that failed, with the links of its error from the outermost on. -/
def failure (chain : List String) : Outcome :=
  ⟨1, .ofErrors (": ".intercalate chain ++ "\n")⟩

end Outcome

namespace Command

/-- The files of a system, by path. -/
abbrev Files : Type :=
  String → Except FileError (List UInt8)

/-- What could not be done when a file cannot be read. -/
def unreadable : String := "Failed open source file"

/-- The text in a file. -/
def readText (files : Files) (path : String) : Except FileError String := do
  match Text.decode (← files path) with
  | some text => return text
  | none => .error .invalidEncoding

/-- Each line with its end. -/
def unlines (lines : List String) : String :=
  String.join (lines.map (· ++ "\n"))

/-- Runs a source, printing its answers only when every line has one. -/
def runFile (files : Files) (path : String) : Outcome :=
  match readText files path with
  | .error e => .failure ["InternalError: " ++ unreadable, unreadable, e.message]
  | .ok source =>
    match ((Session.new Session.defaultMarker).runSource source).1 with
    | .ok answers => .success (unlines answers)
    | .error e => .failure e.chain

/-- What is said when the input is no text. -/
def promptFailure (e : ReadError) : String :=
  "Failed run prompt: " ++ e.message ++ "\n"

/-- Holds a conversation. An input that is no text ends it early, but does not
    make the call fail. -/
def runPrompt (marker : Char) (input : List UInt8) : Outcome :=
  let (transcript, ending, _) := (Session.new marker).converse Session.defaultPrompt input
  match ending with
  | .ok () => ⟨0, transcript⟩
  | .error e => ⟨0, transcript ++ .ofErrors (promptFailure e)⟩

/-- Prints the shader text of an expression. -/
def runShader (expression : String) : Outcome :=
  match shaderText expression with
  | .ok text => .success (text ++ "\n")
  | .error e => .failure e.chain

/-- Prints a fragment shader for the last line of a file. -/
def runFragment (files : Files) (path : String) : Outcome :=
  match readText files path with
  | .error e => .failure [unreadable, e.message]
  | .ok source =>
    match Shader.Editor.initial.change source with
    | (.error e, _) => .failure e.chain
    | (.ok _, editor) =>
      match editor.fragment with
      | some text => .success text
      | none => .failure ["No fragment shader for the source"]

/-- What a command does with the given files and input. -/
def run (files : Files) (input : List UInt8) : Command → Outcome
  | .file path => runFile files path
  | .repl marker => runPrompt marker input
  | .shader expression => runShader expression
  | .fragment path => runFragment files path

end Command

end ZPlane
