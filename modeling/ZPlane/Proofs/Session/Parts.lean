import ZPlane.CommandLine
import ZPlane.Proofs.Session.Source

/-!
# Sources in Parts

A source can be run in parts. Two texts with a line feed between them are run as the first and
then the second one: the second starts in the session that the first has left, and it is not
looked at when the first fails. Nothing else passes from one line to the next, neither where a
line stands nor what was answered before.

A command line that runs a file holds its answers back until all lines have one. So what it
prints is all or nothing, and which of the two it is depends on the first line that fails.

## Theorems

* `Session.runLines_append`: Lines after other lines.
* `Session.runSource_append`: A source by its parts.
* `Command.run_file_cases`: The ways a file can go.
* `Command.run_file_of_results`: A file whose lines all have answers.
* `Session.runSource_parts`: Sources in parts, and what a command line prints of a file.
-/

namespace ZPlane

namespace Session

/-- Lines after others are run in the session that those have left, unless those failed. -/
theorem runLines_append (s : Session) (before later : List String) :
    s.runLines (before ++ later) = match s.runLines before with
      | (.error e, s') => (.error e, s')
      | (.ok answers, s') => ((s'.runLines later).1.map (answers ++ ·), (s'.runLines later).2) := by
  induction before generalizing s with
  | nil =>
    change s.runLines later = ((s.runLines later).1.map ([] ++ ·), (s.runLines later).2)
    rcases s.runLines later with ⟨e | answers, s'⟩ <;> rfl
  | cons line rest ih =>
    rcases hline : s.runLine line with ⟨e | answer, s₁⟩
    · rw [List.cons_append, runLines_cons_of_error hline, runLines_cons_of_error hline]
    · rw [List.cons_append, runLines_cons_of_ok hline, runLines_cons_of_ok hline, ih]
      -- The answer goes in front of what the other lines answer, wherever these stop.
      rcases s₁.runLines rest with ⟨e | answers, s₂⟩
      · rfl
      · dsimp only [Except.map]
        rcases s₂.runLines later with ⟨e | answers', s₃⟩ <;> rfl

/-- A source by its parts. -/
theorem runSource_append (s : Session) {a : String} (h : a.toList.getLast? ≠ some '\r')
    (b : String) :
    s.runSource (a ++ "\n" ++ b) = match s.runSource a with
      | (.error e, s') => (.error e, s')
      | (.ok answers, s') => ((s'.runSource b).1.map (answers ++ ·), (s'.runSource b).2) := by
  unfold runSource
  rw [Text.contentLines_append, Text.contentLines_feed h, runLines_append]

/-- A list of answers has no failure in it. -/
theorem results_ne_of_error {s : Session} {before later answers : List String} {line : String}
    {e : Error} (h : ((s.after before).runLine line).1 = .error e) :
    s.results (before ++ line :: later) ≠ answers.map .ok := by
  intro hall
  have hmem : .error e ∈ s.results (before ++ line :: later) := by
    rw [results_append, results_cons, h]
    simp
  rw [hall] at hmem
  rcases List.mem_map.mp hmem with ⟨answer, -, hanswer⟩
  cases hanswer

end Session

namespace Command

variable {files : Files} {path text : String} {bytes : List UInt8}

theorem readText_of_decode (hfile : files path = .ok bytes)
    (htext : Text.decode bytes = some text) : readText files path = .ok text := by
  simp only [readText, hfile, bind, Except.bind, htext]
  rfl

/-- A file is run to its end, or up to the first line that fails. -/
theorem run_file_cases (hfile : files path = .ok bytes) (htext : Text.decode bytes = some text)
    (input : List UInt8) :
    let s := Session.new Session.defaultMarker
    (∃ answers : List String, s.results (Text.contentLines text) = answers.map .ok ∧
      run files input (.file path) = .success (unlines answers)) ∨
    ∃ (before : List String) (line : String) (later answers : List String) (e : Error),
      Text.contentLines text = before ++ line :: later ∧
      s.results before = answers.map .ok ∧ ((s.after before).runLine line).1 = .error e ∧
      run files input (.file path) = .failure e.chain := by
  intro s
  have hread := readText_of_decode hfile htext
  rcases Session.runLines_cases s (Text.contentLines text) with
    ⟨answers, hall, hrun⟩ | ⟨before, line, later, answers, e, hlines, hall, -, hline, hrun⟩
  · refine .inl ⟨answers, hall, ?_⟩
    simp only [run, runFile, hread, Session.runSource, s, hrun]
  · refine .inr ⟨before, line, later, answers, e, hlines, hall, hline, ?_⟩
    simp only [run, runFile, hread, Session.runSource, s, hrun]

/-- A file whose lines all have answers is answered by them, one for each line. -/
theorem run_file_of_results (hfile : files path = .ok bytes) (htext : Text.decode bytes = some text)
    (input : List UInt8) {answers : List String}
    (hall : (Session.new Session.defaultMarker).results (Text.contentLines text) =
      answers.map .ok) :
    answers.length = (Text.contentLines text).length ∧
      run files input (.file path) = .success (unlines answers) := by
  rcases run_file_cases hfile htext input with
    ⟨answers', hall', hrun⟩ | ⟨before, line, later, _, e, hlines, -, hline, -⟩
  · have hanswers : answers' = answers :=
      List.map_injective_iff.mpr (fun _ _ => Except.ok.inj) (hall'.symm.trans hall)
    have hlength := congrArg List.length hall
    rw [Session.length_results, List.length_map] at hlength
    rw [hanswers] at hrun
    exact ⟨hlength.symm, hrun⟩
  · rw [hlines] at hall
    exact absurd hall (Session.results_ne_of_error hline)

end Command

namespace Session

/-- A source of two parts is run as the first part and then the second, which is not begun if
    the first fails. A file is run by the command line as far as its lines succeed. If all do,
    their answers are printed, one for each line that is not blank. If not, nothing is printed
    but the first failure. -/
theorem runSource_parts :
    -- The parts are what stands before a line feed and what stands behind it.
    (∀ (s : Session) (a b : String), a.toList.getLast? ≠ some '\r' →
      (∀ e s', s.runSource a = (.error e, s') → s.runSource (a ++ "\n" ++ b) = (.error e, s')) ∧
      ∀ answers s', s.runSource a = (.ok answers, s') →
        (∀ e s'', s'.runSource b = (.error e, s'') →
          s.runSource (a ++ "\n" ++ b) = (.error e, s'')) ∧
        ∀ answers' s'', s'.runSource b = (.ok answers', s'') →
          s.runSource (a ++ "\n" ++ b) = (.ok (answers ++ answers'), s'')) ∧
    -- The file is text.
    ∀ (files : Command.Files) path bytes text input, files path = .ok bytes →
      Text.decode bytes = some text →
      let s := Session.new Session.defaultMarker
      let lines := (Text.lines text).filter fun line => !Text.isBlank line
      let outcome := Command.run files input (.file path)
      (outcome.code = 0 ↔ ∃ answers : List String, s.results lines = answers.map .ok) ∧
      (∀ answers : List String, s.results lines = answers.map .ok → answers.length = lines.length ∧
        outcome = ⟨0, ⟨String.join (answers.map (· ++ "\n")), ""⟩⟩) ∧
      ((∀ answers : List String, s.results lines ≠ answers.map .ok) →
        ∃ (before : List String) (line : String) (later answers : List String) (e : Error),
          lines = before ++ line :: later ∧
          s.results before = answers.map .ok ∧ ((s.after before).runLine line).1 = .error e ∧
          outcome = ⟨1, ⟨"", e.message ++ ": " ++ e.cause ++ "\n"⟩⟩) := by
  refine ⟨fun s a b hreturn => ?_, fun files path bytes text input hfile htext => ?_⟩
  · have happend := runSource_append s hreturn b
    refine ⟨fun e s' ha => ?_, fun answers s' ha => ⟨fun e s'' hb => ?_, fun answers' s'' hb => ?_⟩⟩
    · rw [happend, ha]
    · rw [happend, ha]
      simp only [hb]
      rfl
    · rw [happend, ha]
      simp only [hb]
      rfl
  · intro s lines outcome
    have hcases := Command.run_file_cases hfile htext input
    refine ⟨⟨fun hcode => ?_, fun ⟨answers, hall⟩ => ?_⟩, fun answers hall => ?_, fun hnone => ?_⟩
    · rcases hcases with ⟨answers, hall, -⟩ | ⟨_, _, _, _, e, -, -, -, hrun⟩
      · exact ⟨answers, hall⟩
      · have hfails : outcome.code = 1 := congrArg Outcome.code hrun
        rw [hfails] at hcode
        cases hcode
    · exact congrArg Outcome.code (Command.run_file_of_results hfile htext input hall).2
    · exact Command.run_file_of_results hfile htext input hall
    · rcases hcases with ⟨answers, hall, -⟩ | hfails
      · exact absurd hall (hnone answers)
      · exact hfails

/-- A function and its name in two parts, and in a file that has an unknown name in place of
    the second. -/
theorem runSource_parts_function : ∃ s' : Session,
    (Session.new ',').runSource "f=sin" = (.ok ["[Function]"], s') ∧
    s'.runSource "f" = (.ok ["[Function]"], s') ∧
    (Session.new ',').runSource ("f=sin" ++ "\n" ++ "f") =
      (.ok ["[Function]", "[Function]"], s') ∧
    (Session.new ',').runSource ("f=sin" ++ "\n" ++ "q") =
      (.error (.runtime (.unknownVariable "q")), s') ∧
    Command.run (fun _ => .ok [102, 61, 115, 105, 110, 10, 10, 102]) [] (.file "source") =
      ⟨0, ⟨"[Function]\n[Function]\n", ""⟩⟩ ∧
    ∃ e : Error, Command.run (fun _ => .ok [102, 61, 115, 105, 110, 10, 113]) [] (.file "source") =
      ⟨1, ⟨"", e.message ++ ": " ++ e.cause ++ "\n"⟩⟩ := by
  let s' : Session :=
    ⟨workspaceAfter ((Expr.operation .assign (.name "f") (.name "sin")).eval .standard), ','⟩
  have hf : parse "f=sin" = .ok (.operation .assign (.name "f") (.name "sin")) := by cbv
  have hname : parse "f" = .ok (.name "f") := by cbv
  have hq : parse "q" = .ok (.name "q") := by cbv
  have hsine : (Session.new ',').runLine "f=sin" = (.ok "[Function]", s') := by
    rw [runLine_of_evaluate_ok rfl (evaluate_of_eval_ok hf rfl)]
    rfl
  have hagain : s'.runLine "f" = (.ok "[Function]", s') := by
    rw [runLine_of_evaluate_ok rfl (evaluate_of_eval_ok hname rfl)]
    rfl
  have hfails : s'.runLine "q" = (.error (.runtime (.unknownVariable "q")), s') :=
    runLine_of_evaluate_error rfl (evaluate_of_eval_error hq rfl)
  have hfirst : (Session.new ',').runSource "f=sin" = (.ok ["[Function]"], s') := by
    change (Session.new ',').runLines ["f=sin"] = _
    rw [runLines_cons_of_ok hsine]
    rfl
  have hsecond : s'.runSource "f" = (.ok ["[Function]"], s') := by
    change s'.runLines ["f"] = _
    rw [runLines_cons_of_ok hagain]
    rfl
  have hstops : s'.runSource "q" = (.error (.runtime (.unknownVariable "q")), s') := by
    change s'.runLines ["q"] = _
    rw [runLines_cons_of_error hfails]
  rcases runSource_parts with ⟨hparts, hfile⟩
  refine ⟨s', hfirst, hsecond, ?_, ?_, ?_, ?_⟩
  · exact ((hparts _ "f=sin" "f" (by decide)).2 _ _ hfirst).2 _ _ hsecond
  · exact ((hparts _ "f=sin" "q" (by decide)).2 _ _ hfirst).1 _ _ hstops
  · have hall : (Session.new ',').results ["f=sin", "f"] =
        ["[Function]", "[Function]"].map .ok := by
      rw [results_cons, results_cons, hsine, hagain]
      rfl
    exact ((hfile _ "source" _ "f=sin\n\nf" [] rfl rfl).2.1 _ hall).2
  · have hlast : (((Session.new ',').after ["f=sin"]).runLine "q").1 =
        .error (.runtime (.unknownVariable "q")) := by
      rw [after_cons, after_nil, hsine, hfails]
    have hnone (answers : List String) :
        (Session.new ',').results ["f=sin", "q"] ≠ answers.map .ok :=
      results_ne_of_error hlast
    rcases (hfile (fun _ => .ok _) "source" [102, 61, 115, 105, 110, 10, 113] "f=sin\nq" [] rfl
      rfl).2.2 hnone with ⟨_, _, _, _, e, -, -, -, hrun⟩
    exact ⟨e, hrun⟩

end Session

end ZPlane
