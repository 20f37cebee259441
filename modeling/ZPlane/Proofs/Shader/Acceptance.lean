import ZPlane.CommandLine
import ZPlane.Proofs.Shader.Rejection
import ZPlane.Proofs.Text.Lines

/-!
# Which Texts an Editor Accepts

An editor accepts a text that has a line which is not blank, if every such line has shader
text. It then shows the last of them, and what it was shown before is gone. A text that is
not accepted changes nothing. So the editor always shows the last text that it accepted, as
if no other had been handed over.

An editor keeps an expression and a shader text beside its text, and nothing but the way they
are written keeps the three together. They do belong together after any texts, accepted or
not: the expression is that of the last line of the text, and the shader text is that of the
expression.

A rejected text is answered by the failure of its first line that fails. A text without
line feeds is answered as its only line is.

An expression has a fragment shader whenever it has shader text: the two differ in how
names are spelled, and the spelling of a name never fails. That the command line asks for a
fragment shader and has none is therefore impossible.

## Main definitions

* `Shader.Editor.Acceptable`: A text with lines that all have shader text.
* `Shader.Editor.Consistent`: The fields of an editor belong together.
* `Shader.Editor.FirstFailure`: The failure that a rejected text is answered by.
* `Shader.Editor.after`: The editor after texts that were handed over in order.

## Theorems

* `Shader.exists_fragment`: What has shader text has a fragment shader.
* `Shader.Editor.compile_cases`: What becomes of a text.
* `Shader.Editor.Consistent.change`, `Shader.Editor.Consistent.after`: The fields belong
  together after a text, and after several.
* `Shader.Editor.after_append`: The last accepted text is what counts.
* `Command.runFragment_ne`: The lack of a fragment shader is never reported.
* `Shader.Editor.shows_last_accepted`: What an editor shows and how it answers.
-/

namespace ZPlane

namespace Shader

/-- What has shader text has a fragment shader. -/
theorem exists_fragment {e : Expr} {shader : String} (h : text e = .ok shader) :
    ∃ shader', fragment e = .ok shader' :=
  exists_fragment_iff.mpr (exists_emit_iff.mp ⟨shader, h⟩)

namespace Editor

/-- A text with a line that is not blank, where every such line has shader text. -/
def Acceptable (text : String) : Prop :=
  (∃ line ∈ Text.lines text, Text.isBlank line = false) ∧
    ∀ line ∈ Text.lines text, Text.isBlank line = false →
      ∃ e shader, parse line = .ok e ∧ Shader.text e = .ok shader

/-- The fields of an editor belong together. Nothing was accepted yet, or the expression is that
    of the last line of an acceptable text and has the shader text. -/
inductive Consistent : Editor → Prop
  | initial : Consistent initial
  | accepted {text line shader : String} {e : Expr} : Acceptable text →
      (Text.contentLines text).getLast? = some line → parse line = .ok e →
      Shader.text e = .ok shader → Consistent ⟨text, some e, some shader⟩

/-- The failure of the first line of a text that fails. A text whose lines are all blank
    fails for want of an expression. -/
inductive FirstFailure (text : String) : Error → Prop
  | blank (h : Text.contentLines text = []) :
    FirstFailure text (.parse ⟨1, .expectedExpression⟩)
  | line {before later : List String} {line : String} {err : Error}
    (hlines : Text.contentLines text = before ++ line :: later)
    (hbefore : ∀ line ∈ before, ∃ shader, shaderText line = .ok shader)
    (hline : shaderText line = .error err) :
    FirstFailure text err

/-- The editor after texts that were handed over in order. -/
def after (editor : Editor) (texts : List String) : Editor :=
  texts.foldl (fun editor text => (editor.change text).2) editor

theorem emitShader_eq_ok_iff {e : Expr} {shader : String} :
    emitShader e = .ok shader ↔ Shader.text e = .ok shader := by
  unfold emitShader
  rcases Shader.text e with err | text
  · constructor <;> intro h <;> cases h
  · constructor <;> intro h <;> cases h <;> rfl

theorem compileLine_eq_ok_iff {line : String} {e : Expr} {shader : String} :
    compileLine line = .ok (e, shader) ↔ parse line = .ok e ∧ Shader.text e = .ok shader := by
  constructor
  · intro h
    rcases ok_and_ok_of_bind h with ⟨e', hparse, h₁⟩
    rcases ok_and_ok_of_bind h₁ with ⟨shader', hshader, h₂⟩
    cases h₂
    exact ⟨hparse, emitShader_eq_ok_iff.mp hshader⟩
  · rintro ⟨hparse, htext⟩
    unfold compileLine
    rw [hparse]
    change emitShader e >>= _ = _
    rw [emitShader_eq_ok_iff.mpr htext]
    rfl

/-- The shader text of a line is what was compiled, without its expression. -/
theorem shaderText_eq_map (line : String) : shaderText line = Prod.snd <$> compileLine line := by
  unfold shaderText compileLine
  rcases parse line with err | e
  · rfl
  · change emitShader e = Prod.snd <$> (emitShader e >>= fun shader => pure (e, shader))
    rcases emitShader e with err | shader <;> rfl

theorem shaderText_of_compileLine_ok {line : String} {e : Expr} {shader : String}
    (h : compileLine line = .ok (e, shader)) : shaderText line = .ok shader := by
  rw [shaderText_eq_map, h]
  rfl

theorem shaderText_of_compileLine_error {line : String} {err : Error}
    (h : compileLine line = .error err) : shaderText line = .error err := by
  rw [shaderText_eq_map, h]
  rfl

theorem mem_contentLines {text line : String} :
    line ∈ Text.contentLines text ↔ line ∈ Text.lines text ∧ Text.isBlank line = false := by
  simp [Text.contentLines]

/-- Acceptance is about the lines that are not blank. -/
theorem acceptable_iff {text : String} : Acceptable text ↔ Text.contentLines text ≠ [] ∧
    ∀ line ∈ Text.contentLines text, ∃ compiled, compileLine line = .ok compiled := by
  simp only [Acceptable, ne_eq, List.eq_nil_iff_forall_not_mem, not_forall, not_not,
    mem_contentLines, and_imp, Prod.exists, compileLine_eq_ok_iff]

theorem compile_of_ok {text : String} {compiled : List (Expr × String)} {last : Expr × String}
    (h : compileLines (Text.contentLines text) = .ok compiled)
    (hlast : compiled.getLast? = some last) : compile text = .ok last := by
  simp only [compile, h, bind, Except.bind, hlast]
  rfl

theorem compile_of_error {text : String} {err : Error}
    (h : compileLines (Text.contentLines text) = .error err) : compile text = .error err := by
  simp only [compile, h, bind, Except.bind]

theorem compile_of_nil {text : String} (h : Text.contentLines text = []) :
    compile text = .error (.parse ⟨1, .expectedExpression⟩) := by
  unfold compile
  rw [h]
  rfl

/-- A text is compiled to what its last line is compiled to, if every line is, and fails as
    its first line that fails. -/
theorem compile_cases (text : String) :
    (Acceptable text ∧ ∃ line e shader, (Text.contentLines text).getLast? = some line ∧
      compileLine line = .ok (e, shader) ∧ compile text = .ok (e, shader)) ∨
    (¬Acceptable text ∧ ∃ err, FirstFailure text err ∧ compile text = .error err) := by
  -- `compileLines` is `compileLine` for each line, so it succeeds for all of them or stops at
  -- the first failure.
  rcases mapM_cases compileLine (Text.contentLines text) with
    ⟨compiled, hcompiled, hmap⟩ | ⟨before, line, later, err, hlines, hbefore, hline, herr⟩
  · have hall : ∀ line ∈ Text.contentLines text, ∃ pair, compileLine line = .ok pair := by
      intro line hline
      have hmem : compileLine line ∈ compiled.map .ok := hmap ▸ List.mem_map_of_mem hline
      rcases List.mem_map.mp hmem with ⟨pair, -, hpair⟩
      exact ⟨pair, hpair.symm⟩
    -- The last result belongs to the last line.
    have hlast : (Text.contentLines text).getLast?.map compileLine = compiled.getLast?.map .ok := by
      rw [← List.getLast?_map, ← List.getLast?_map, hmap]
    rcases hl : (Text.contentLines text).getLast? with - | line
    · have hnil := List.getLast?_eq_none_iff.mp hl
      exact .inr ⟨fun h => (acceptable_iff.mp h).1 hnil, _, .blank hnil, compile_of_nil hnil⟩
    · have hne : Text.contentLines text ≠ [] := by
        intro hnil
        rw [hnil] at hl
        cases hl
      rw [hl] at hlast
      rcases hc : compiled.getLast? with - | ⟨e, shader⟩
      · rw [hc] at hlast
        cases hlast
      · rw [hc] at hlast
        exact .inl ⟨acceptable_iff.mpr ⟨hne, hall⟩, line, e, shader, rfl, Option.some.inj hlast,
          compile_of_ok hcompiled hc⟩
  · refine .inr ⟨fun h => ?_, err, .line hlines (fun l hl => ?_)
      (shaderText_of_compileLine_error hline), compile_of_error herr⟩
    · rcases (acceptable_iff.mp h).2 line (by simp [hlines]) with ⟨pair, hpair⟩
      rw [hline] at hpair
      cases hpair
    · rcases hbefore l hl with ⟨⟨e, shader⟩, hcompiled⟩
      exact ⟨shader, shaderText_of_compileLine_ok hcompiled⟩

variable {text : String}

/-- An accepted text is shown by its last line. -/
theorem change_of_acceptable (editor : Editor) (h : Acceptable text) :
    ∃ line e shader, (Text.contentLines text).getLast? = some line ∧
      compileLine line = .ok (e, shader) ∧
      editor.change text = (.ok shader, ⟨text, some e, some shader⟩) := by
  rcases compile_cases text with ⟨-, line, e, shader, hlast, hline, hcompile⟩ | ⟨hnot, -⟩
  · refine ⟨line, e, shader, hlast, hline, ?_⟩
    unfold change
    rw [hcompile]
  · exact absurd h hnot

/-- A rejected text changes nothing, and its first line that fails is reported. -/
theorem change_of_not_acceptable (editor : Editor) (h : ¬Acceptable text) :
    ∃ err, FirstFailure text err ∧ editor.change text = (.error err, editor) := by
  rcases compile_cases text with ⟨hacc, -⟩ | ⟨-, err, hfail, hcompile⟩
  · exact absurd hacc h
  · refine ⟨err, hfail, ?_⟩
    unfold change
    rw [hcompile]

/-- What an accepted text leaves behind does not depend on what was there. -/
theorem change_eq_of_acceptable (editor editor' : Editor) (h : Acceptable text) :
    editor.change text = editor'.change text := by
  unfold change
  rcases compile_cases text with ⟨-, _, _, _, -, -, hcompile⟩ | ⟨hnot, -⟩
  · rw [hcompile]
  · exact absurd h hnot

theorem exists_ok_change_iff (editor : Editor) :
    (∃ shader, (editor.change text).1 = .ok shader) ↔ Acceptable text := by
  constructor
  · rintro ⟨shader, hshader⟩
    by_contra hnot
    rcases change_of_not_acceptable editor hnot with ⟨err, -, hchange⟩
    rw [hchange] at hshader
    cases hshader
  · intro h
    rcases change_of_acceptable editor h with ⟨line, e, shader, -, -, hchange⟩
    exact ⟨shader, by rw [hchange]⟩

/-- Texts that are rejected leave the editor as it was. -/
theorem after_of_forall_not_acceptable (editor : Editor) {texts : List String}
    (h : ∀ text ∈ texts, ¬Acceptable text) : editor.after texts = editor := by
  induction texts with
  | nil => rfl
  | cons text texts ih =>
    rcases List.forall_mem_cons.mp h with ⟨htext, htexts⟩
    rcases change_of_not_acceptable editor htext with ⟨err, -, hchange⟩
    change after (editor.change text).2 texts = editor
    rw [hchange, ih htexts]

/-- The last accepted text alone leaves the editor as all texts do. -/
theorem after_append (editor editor' : Editor) (before : List String) {later : List String}
    (h : Acceptable text) (hlater : ∀ text ∈ later, ¬Acceptable text) :
    editor.after (before ++ text :: later) = (editor'.change text).2 := by
  have hsplit : editor.after (before ++ text :: later) =
      (((editor.after before).change text).2).after later := by
    simp only [after, List.foldl_append, List.foldl_cons]
  rw [hsplit, after_of_forall_not_acceptable _ hlater,
    change_eq_of_acceptable (editor.after before) editor' h]

namespace Consistent

variable {editor : Editor}

/-- A text replaces all fields of an editor together, or none of them. -/
theorem change (h : editor.Consistent) (text : String) : (editor.change text).2.Consistent := by
  by_cases hacc : Acceptable text
  · rcases change_of_acceptable editor hacc with ⟨line, e, shader, hlast, hline, hchange⟩
    rcases compileLine_eq_ok_iff.mp hline with ⟨hparse, htext⟩
    rw [hchange]
    exact .accepted hacc hlast hparse htext
  · rcases change_of_not_acceptable editor hacc with ⟨err, -, hchange⟩
    rw [hchange]
    exact h

theorem after (h : editor.Consistent) (texts : List String) : (editor.after texts).Consistent := by
  induction texts generalizing editor with
  | nil => exact h
  | cons text texts ih => exact ih (h.change text)

/-- There is a fragment shader whenever a shader text is kept, since both are of one
    expression. -/
theorem shader_eq_none_iff (h : editor.Consistent) :
    editor.shader = none ↔ editor.fragment = none := by
  cases h with
  | initial => exact ⟨fun _ => rfl, fun _ => rfl⟩
  | accepted _ _ _ htext =>
    rcases exists_fragment htext with ⟨fragment, hfragment⟩
    simp [Editor.fragment, hfragment, Except.toOption]

end Consistent

/-- A text that is one line is answered as that line is. -/
theorem fst_change_of_contentLines_eq (editor : Editor) (h : Text.contentLines text = [text]) :
    (editor.change text).1 = shaderText text := by
  by_cases hacc : Acceptable text
  · rcases change_of_acceptable editor hacc with ⟨line, e, shader, hlast, hline, hchange⟩
    rw [h, List.getLast?_singleton] at hlast
    cases hlast
    rw [hchange, shaderText_of_compileLine_ok hline]
  · rcases change_of_not_acceptable editor hacc with ⟨err, hfail, hchange⟩
    rw [hchange]
    cases hfail with
    | blank hnil =>
      rw [h] at hnil
      cases hnil
    | @line before later line _ hlines _ hline =>
      have hmem : line ∈ [text] := by
        rw [← h, hlines]
        simp
      rw [← List.mem_singleton.mp hmem, hline]

/-- What an accepted text shows. -/
theorem shows_of_acceptable (editor : Editor) (h : Acceptable text) :
    ∃ line e shader fragment, (Text.contentLines text).getLast? = some line ∧
      parse line = .ok e ∧ Shader.text e = .ok shader ∧ Shader.fragment e = .ok fragment ∧
      (editor.change text).1 = .ok shader ∧
      (editor.change text).2.text = text ∧
      (editor.change text).2.shader = some shader ∧
      (editor.change text).2.fragment = some fragment := by
  rcases change_of_acceptable editor h with ⟨line, e, shader, hlast, hline, hchange⟩
  rcases compileLine_eq_ok_iff.mp hline with ⟨hparse, htext⟩
  rcases exists_fragment htext with ⟨fragment, hfragment⟩
  refine ⟨line, e, shader, fragment, hlast, hparse, htext, hfragment, ?_⟩
  simp only [hchange, Editor.fragment, Option.bind_some, hfragment, Except.toOption, and_self]

end Editor

end Shader

namespace Command

open Shader (Editor)

variable {files : Files} {path text : String}

theorem runFragment_of_acceptable {fragment : String} (hread : readText files path = .ok text)
    (h : Editor.Acceptable text)
    (hfragment : (Editor.initial.change text).2.fragment = some fragment) :
    runFragment files path = .success fragment := by
  rcases Editor.change_of_acceptable Editor.initial h with ⟨line, e, shader, -, -, hchange⟩
  rw [hchange] at hfragment
  simp only [runFragment, hread, hchange, hfragment]

/-- A failure that starts otherwise is not the lack of a fragment shader. -/
theorem failure_ne {a b : String} {c : Char} (ha : a.toList.head? = some c) (hc : c ≠ 'N') :
    Outcome.failure [a, b] ≠ Outcome.failure ["No fragment shader for the source"] := by
  intro h
  -- The first characters tell the two apart, whatever the cause is.
  have hhead := congrArg (fun o : Outcome => o.transcript.errors.toList.head?) h
  have hpair : (Outcome.failure [a, b]).transcript.errors = a ++ ": " ++ b ++ "\n" := rfl
  simp only [hpair, String.toList_append, List.head?_append, ha] at hhead
  exact hc (Option.some.inj hhead)

theorem head?_message (e : Error) : ∃ c, e.message.toList.head? = some c ∧ c ≠ 'N' := by
  cases e <;> exact ⟨_, by simp [Error.message, Error.stage]; rfl, by decide⟩

/-- The lack of a fragment shader is never reported. -/
theorem runFragment_ne (files : Files) (path : String) :
    runFragment files path ≠ .failure ["No fragment shader for the source"] := by
  rcases hread : readText files path with e | text
  · simp only [runFragment, hread]
    exact failure_ne (c := 'F') rfl (by decide)
  by_cases h : Editor.Acceptable text
  · rcases Editor.shows_of_acceptable Editor.initial h with
      ⟨_, _, _, fragment, -, -, -, -, -, -, -, hfragment⟩
    rw [runFragment_of_acceptable hread h hfragment]
    intro heq
    cases congrArg Outcome.code heq
  · rcases Editor.change_of_not_acceptable Editor.initial h with ⟨e, -, hchange⟩
    rcases head?_message e with ⟨c, hhead, hc⟩
    simp only [runFragment, hread, hchange]
    exact failure_ne hhead hc

end Command

namespace Shader

namespace Editor

/-- An editor shows the last text that it accepted, by its last line, and answers any other
    text with the failure of its first line that fails. -/
theorem shows_last_accepted :
    -- Of all texts, the last accepted one counts.
    (∀ before text later, Acceptable text → (∀ text ∈ later, ¬Acceptable text) →
      initial.after (before ++ text :: later) = initial.after [text]) ∧
    (∀ texts, (∀ text ∈ texts, ¬Acceptable text) → initial.after texts = initial) ∧
    -- What is kept belongs together at any time, and is all there or not there at all.
    (∀ texts, (initial.after texts).Consistent ∧
      ((initial.after texts).shader = none ↔ (initial.after texts).fragment = none)) ∧
    -- A text is accepted for its lines, whatever is shown.
    (∀ (editor : Editor) text,
      (∃ shader, (editor.change text).1 = .ok shader) ↔ Acceptable text) ∧
    -- Its last line is shown, and it always has a fragment shader.
    (∀ (editor : Editor) text, Acceptable text → ∃ line e shader fragment,
      (Text.contentLines text).getLast? = some line ∧
      parse line = .ok e ∧ Shader.text e = .ok shader ∧ Shader.fragment e = .ok fragment ∧
      (editor.change text).1 = .ok shader ∧
      (editor.change text).2.text = text ∧
      (editor.change text).2.shader = some shader ∧
      (editor.change text).2.fragment = some fragment ∧
      ∀ files path, Command.readText files path = .ok text →
        Command.runFragment files path = .success fragment) ∧
    (∀ files path,
      Command.runFragment files path ≠ .failure ["No fragment shader for the source"]) ∧
    -- Any other text changes nothing.
    (∀ (editor : Editor) text, ¬Acceptable text →
      ∃ err, FirstFailure text err ∧ editor.change text = (.error err, editor)) ∧
    -- One line is answered as such.
    (∀ (editor : Editor) text, Text.isBlank text = false → '\n' ∉ text.toList →
      (editor.change text).1 = shaderText text) := by
  refine ⟨?_, ?_, ?_, ?_, ?_, ?_, ?_, ?_⟩
  · intro before text later htext hlater
    exact after_append initial initial before htext hlater
  · intro texts htexts
    exact after_of_forall_not_acceptable initial htexts
  · intro texts
    have hconsistent := Consistent.initial.after texts
    exact ⟨hconsistent, hconsistent.shader_eq_none_iff⟩
  · intro editor text
    exact exists_ok_change_iff editor
  · intro editor text htext
    rcases shows_of_acceptable editor htext with
      ⟨line, e, shader, fragment, hlast, hparse, hshader, hfragment, hfst, hsnd, hs, hf⟩
    refine ⟨line, e, shader, fragment, hlast, hparse, hshader, hfragment, hfst, hsnd, hs, hf, ?_⟩
    intro files path hread
    rw [change_eq_of_acceptable editor initial htext] at hf
    exact Command.runFragment_of_acceptable hread htext hf
  · exact Command.runFragment_ne
  · intro editor text htext
    exact change_of_not_acceptable editor htext
  · intro editor text hblank hfeed
    exact fst_change_of_contentLines_eq editor (Text.contentLines_of_not_mem hblank hfeed)

theorem acceptable_sum : Acceptable "a\n\nz+a" := by
  have hlines : Text.contentLines "a\n\nz+a" = ["a", "z+a"] := by cbv
  rw [acceptable_iff, hlines]
  refine ⟨by simp, List.forall_mem_cons.mpr ⟨⟨(.name "a", "a"), by cbv⟩, ?_⟩⟩
  exact List.forall_mem_singleton.mpr
    ⟨(.operation (.arith .add) (.name "z") (.name "a"), "(z+a)"), by cbv⟩

theorem not_acceptable_power : ¬Acceptable "z\nz^z" := by
  have hlines : Text.contentLines "z\nz^z" = ["z", "z^z"] := by cbv
  have hpower : compileLine "z^z" = .error (.shader (.unsupportedOperation (.arith .pow))) := by
    cbv
  rw [acceptable_iff, hlines]
  rintro ⟨-, h⟩
  rcases h "z^z" (by simp) with ⟨compiled, hcompiled⟩
  rw [hpower] at hcompiled
  cases hcompiled

/-- A sum stays up while a power is typed below it. -/
theorem shows_last_accepted_sum :
    initial.after ["z", "a\n\nz+a", "z\nz^z"] = initial.after ["a\n\nz+a"] ∧
    initial.after ["z\nz^z"] = initial ∧
    (initial.change "a\n\nz+a").2.shader = some "(z+a)" ∧
    (∃ fragment, Command.runFragment (fun _ => .ok [97, 10, 10, 122, 43, 97]) "plot" =
      .success fragment) ∧
    (∃ err, FirstFailure "z\nz^z" err ∧ initial.change "z\nz^z" = (.error err, initial)) ∧
    (initial.change "z+a").1 = shaderText "z+a" := by
  rcases shows_last_accepted with ⟨hafter, hnone, -, -, hshows, -, hrejects, hline⟩
  have hpower : ∀ text ∈ ["z\nz^z"], ¬Acceptable text :=
    List.forall_mem_singleton.mpr not_acceptable_power
  rcases hshows initial "a\n\nz+a" acceptable_sum with
    ⟨line, e, shader, fragment, hlast, hparse, htext, -, -, -, hshader, -, hfragment⟩
  have hlines : Text.contentLines "a\n\nz+a" = ["a", "z+a"] := by cbv
  have hsum : parse "z+a" = .ok (.operation (.arith .add) (.name "z") (.name "a")) := by cbv
  rw [hlines] at hlast
  cases hlast
  cases hsum.symm.trans hparse
  cases htext
  exact ⟨hafter ["z"] _ ["z\nz^z"] acceptable_sum hpower, hnone _ hpower, hshader,
    ⟨fragment, hfragment _ "plot" rfl⟩, hrejects _ _ not_acceptable_power,
    hline _ _ rfl (by decide)⟩

end Editor

end Shader

end ZPlane
