import ZPlane.Session.Prompt
import ZPlane.Proofs.Session.Run
import ZPlane.Proofs.Text.Lines

/-!
# What a Conversation Writes

A conversation is determined by its lines. Each line that is text has a prompt, and each one
that is not blank has a reply, which is one record on one of the two streams. The reply is
what the line answers in the session that the lines before it left, and blank lines leave
nothing behind. So the session at the end is that of running the other lines in order.

A conversation is cut short by a line that is no text. Up to there it goes as if the input
ended before that line, except that there is no farewell.

The replies are stated line by line, without a session that is passed along. That the loop
passes it along is what the induction shows, one line in front of the others at a time.

## Main definitions

* `Session.commands`: The lines that are run.
* `Session.replies`: What each line is answered.
* `Session.records`: What lines that are text write.

## Theorems

* `Session.answer_eq`: What one line does.
* `Session.converseLines_append`: What lines that are text do, whatever comes after them.
* `Session.converse_records`: What a conversation writes and leaves.
-/

namespace ZPlane

namespace Transcript

theorem empty_append (a : Transcript) : empty ++ a = a :=
  congrArg₂ Transcript.mk String.empty_append String.empty_append

theorem append_assoc (a b c : Transcript) : a ++ b ++ c = a ++ (b ++ c) :=
  congrArg₂ Transcript.mk String.append_assoc String.append_assoc

theorem append_ofOutput (a : Transcript) (text : String) :
    a ++ ofOutput text = ⟨a.output ++ text, a.errors⟩ :=
  congrArg (Transcript.mk _) String.append_empty

end Transcript

namespace Session

/-- The lines that are run: those that are not blank, without the white space around them. -/
def commands (texts : List String) : List String :=
  (texts.filter fun text => !Text.isBlank text).map Text.trim

/-- What a line is answered, if it is not blank. -/
def reply (s : Session) (text : String) : Option (Except Error String) :=
  if Text.isBlank text then none else some (s.runLine (Text.trim text)).1

/-- What each line is answered in the session that the lines before it left. -/
def replies (s : Session) (texts : List String) : List (Option (Except Error String)) :=
  texts.mapIdx fun i text => (s.after (commands (texts.take i))).reply text

/-- The record of a reply on the output. -/
def outputRecord : Option (Except Error String) → String
  | some (.ok answer) => answer ++ "\n"
  | _ => ""

/-- The record of a reply on the errors. -/
def errorRecord : Option (Except Error String) → String
  | some (.error e) => e.message ++ "\n"
  | _ => ""

/-- What lines that are text write, with a prompt before each. -/
def records (s : Session) (prompt : String) (texts : List String) : Transcript where
  output := String.join ((s.replies texts).map fun reply => prompt ++ outputRecord reply)
  errors := String.join ((s.replies texts).map errorRecord)

theorem commands_cons (text : String) (texts : List String) :
    commands (text :: texts) = commands [text] ++ commands texts := by
  simp only [commands, ← List.map_append, ← List.filter_append, List.singleton_append]

theorem commands_of_blank {text : String} (h : Text.isBlank text = true) :
    commands [text] = [] := by
  simp [commands, h]

theorem commands_of_not_blank {text : String} (h : Text.isBlank text = false) :
    commands [text] = [Text.trim text] := by
  simp [commands, h]

theorem replies_cons (s : Session) (text : String) (texts : List String) :
    s.replies (text :: texts) = s.reply text :: (s.after (commands [text])).replies texts := by
  -- Before each of the other lines, the first one was run before all else.
  have hsession (i : Nat) : s.after (commands ((text :: texts).take (i + 1))) =
      (s.after (commands [text])).after (commands (texts.take i)) := by
    rw [List.take_succ_cons, commands_cons, after_append]
  simp only [replies, List.mapIdx_cons, hsession]
  rfl

/-- A line writes its record and leaves the session of its command. -/
theorem answer_eq (s : Session) (text : String) :
    s.answer text =
      (⟨outputRecord (s.reply text), errorRecord (s.reply text)⟩, s.after (commands [text])) := by
  unfold answer reply
  simp only [Text.isEmpty_trim]
  by_cases hblank : Text.isBlank text = true
  · rw [if_pos hblank, if_pos hblank, commands_of_blank hblank]
    rfl
  · rw [if_neg hblank, if_neg hblank, commands_of_not_blank (by simpa using hblank)]
    rcases hline : s.runLine (Text.trim text) with ⟨answer | e, s'⟩ <;>
      simp only [after_cons, after_nil, hline] <;> rfl

theorem records_cons (s : Session) (prompt text : String) (texts : List String) :
    s.records prompt (text :: texts) =
      .ofOutput prompt ++ ⟨outputRecord (s.reply text), errorRecord (s.reply text)⟩ ++
        (s.after (commands [text])).records prompt texts := by
  unfold records
  simp only [replies_cons, List.map_cons, String.join_cons]
  -- A prompt is nothing on the errors.
  change _ = Transcript.mk _ ("" ++ _ ++ _)
  rw [String.empty_append]
  rfl

/-- Lines that are text write their records, and what comes after them goes on in the
    session that they left. -/
theorem converseLines_append (prompt : String) (s : Session) {valid : List (List UInt8)}
    {texts : List String} (h : valid.map Text.decode = texts.map some)
    (rest : List (List UInt8)) :
    converseLines prompt s (valid ++ rest) =
      (s.records prompt texts ++ (converseLines prompt (s.after (commands texts)) rest).1,
        (converseLines prompt (s.after (commands texts)) rest).2) := by
  induction texts generalizing s valid with
  | nil =>
    rw [List.map_nil, List.map_eq_nil_iff] at h
    subst h
    exact Prod.ext (Transcript.empty_append _).symm rfl
  | cons text texts ih =>
    rcases valid with - | ⟨bytes, valid⟩
    · cases h
    rw [List.map_cons, List.map_cons, List.cons.injEq] at h
    -- The rest is a conversation of its own, in the session that the first line left.
    have hrest := ih (s.after (commands [text])) h.2
    rw [← after_append, ← commands_cons] at hrest
    simp only [List.cons_append, converseLines, h.1, answer_eq, hrest, records_cons]
    rw [Transcript.append_assoc _ (records _ _ _)]

/-- A conversation writes a prompt and at most one record for each line that is text, and
    leaves the session of the lines that are not blank. It ends with the input, or with the
    first line that is no text. -/
theorem converse_records (s : Session) (prompt : String) (input : List UInt8) :
    -- The lines are the input, cut after each line feed.
    (Text.byteLines input).flatten = input ∧
    Text.IsCut (· == 10) (Text.byteLines input) ∧
    -- All lines are text.
    (∀ texts, (Text.byteLines input).map Text.decode = texts.map some →
      s.converse prompt input =
        (⟨String.join ((s.replies texts).map (prompt ++ outputRecord ·)) ++ prompt ++ farewell,
            String.join ((s.replies texts).map errorRecord)⟩,
          .ok (), s.after (commands texts))) ∧
    -- A line is no text, and those before it are.
    (∀ texts valid bytes rest, Text.byteLines input = valid ++ bytes :: rest →
      valid.map Text.decode = texts.map some → Text.decode bytes = none →
      s.converse prompt input =
        (⟨String.join ((s.replies texts).map (prompt ++ outputRecord ·)) ++ prompt,
            String.join ((s.replies texts).map errorRecord)⟩,
          .error .invalidEncoding, s.after (commands texts))) := by
  refine ⟨Text.flatten_cutAfter _ input, Text.isCut_cutAfter _ input, ?_, ?_⟩
  · intro texts htexts
    have hlines := converseLines_append prompt s htexts []
    rw [List.append_nil] at hlines
    rw [converse, hlines, converseLines, Transcript.append_ofOutput, ← String.append_assoc]
    rfl
  · intro texts valid bytes rest hsplit htexts hbytes
    rw [converse, hsplit, converseLines_append prompt s htexts]
    simp only [converseLines, hbytes, Transcript.append_ofOutput]
    rfl

/-- An unknown name and a blank line, before the input ends and before a line that is no
    text. -/
theorem converse_records_unknown :
    (Session.new ',').converse "> " [120, 10, 32] =
      (⟨"> > > \nExited complot repl\n", "Runtime error: Unknown variable \"x\"\n"⟩, .ok (),
        Session.new ',') ∧
    (Session.new ',').converse "> " [120, 10, 32, 10, 255, 10, 120] =
      (⟨"> > > ", "Runtime error: Unknown variable \"x\"\n"⟩, .error .invalidEncoding,
        Session.new ',') := by
  let unknown : Error := .runtime (.unknownVariable "x")
  have hparse : parse "x" = .ok (.name "x") := by cbv
  have hline : (Session.new ',').runLine "x" = (.error unknown, Session.new ',') :=
    runLine_of_evaluate_error rfl (evaluate_of_eval_error hparse rfl)
  have hreply (blank : String) (hblank : Text.isBlank blank = true) :
      (Session.new ',').replies ["x\n", blank] = [some (.error unknown), none] ∧
      (Session.new ',').after (commands ["x\n", blank]) = Session.new ',' := by
    have hx : (Session.new ',').after (commands ["x\n"]) = Session.new ',' := by
      rw [commands_of_not_blank rfl]
      exact congrArg Prod.snd hline
    have hreplyx : (Session.new ',').reply "x\n" = some (.error unknown) :=
      congrArg (some ∘ Prod.fst) hline
    refine ⟨?_, ?_⟩
    · rw [replies_cons, replies_cons, hx, hreplyx, reply, if_pos hblank]
      rfl
    · rw [commands_cons, after_append, hx, commands_of_blank hblank]
      rfl
  rcases converse_records (Session.new ',') "> " [120, 10, 32] with ⟨-, -, hends, -⟩
  rcases converse_records (Session.new ',') "> " [120, 10, 32, 10, 255, 10, 120] with
    ⟨-, -, -, hinvalid⟩
  refine ⟨?_, ?_⟩
  · rw [hends ["x\n", " "] rfl, (hreply " " rfl).1, (hreply " " rfl).2]
    rfl
  · rw [hinvalid ["x\n", " \n"] [[120, 10], [32, 10]] [255, 10] [[120]] rfl rfl rfl,
      (hreply " \n" rfl).1, (hreply " \n" rfl).2]
    rfl

end Session

end ZPlane
