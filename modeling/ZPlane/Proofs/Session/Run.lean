import ZPlane.Proofs.Evaluation.Identity
import ZPlane.Session.Basic

/-!
# Running Lines One After Another

A session goes on after a line that fails, so the lines of a list are all run, each in the
session that the lines before it left. This is not `Session.runLines`, which stops at the
first failure.

What a line can do to the environment is said once, in `Session.environment_runLine`: it
leaves it as it was, or it binds one name that was free. A name that is bound therefore
keeps its value, whatever comes after.

## Main definitions

* `Session.after`: The session that a list of lines leaves.
* `Session.results`: What each line of a list answers.

## Theorems

* `Session.runLine_of_marked`, `Session.runLine_of_evaluate_ok`,
  `Session.runLine_of_evaluate_error`: The three ways a line can go.
* `Session.environment_runLine`: What a line can do to the environment.
* `Session.get?_after`: A bound name keeps its value.
-/

namespace ZPlane

namespace Session

/-- The session that is left when the lines were run in order. -/
def after (s : Session) (lines : List String) : Session :=
  lines.foldl (fun s line => (s.runLine line).2) s

/-- What each of the lines answers when they are run in order. -/
def results (s : Session) : List String → List (Except Error String)
  | [] => []
  | line :: rest => (s.runLine line).1 :: (s.runLine line).2.results rest

@[simp]
theorem after_nil (s : Session) : s.after [] = s := rfl

@[simp]
theorem after_cons (s : Session) (line : String) (rest : List String) :
    s.after (line :: rest) = (s.runLine line).2.after rest := rfl

theorem after_append (s : Session) (before later : List String) :
    s.after (before ++ later) = (s.after before).after later :=
  List.foldl_append

@[simp]
theorem results_cons (s : Session) (line : String) (rest : List String) :
    s.results (line :: rest) = (s.runLine line).1 :: (s.runLine line).2.results rest := rfl

theorem results_append (s : Session) (before later : List String) :
    s.results (before ++ later) = s.results before ++ (s.after before).results later := by
  induction before generalizing s with
  | nil => rfl
  | cons line rest ih => rw [List.cons_append, results_cons, ih]; rfl

@[simp]
theorem length_results (s : Session) (lines : List String) :
    (s.results lines).length = lines.length := by
  induction lines generalizing s with
  | nil => rfl
  | cons line rest ih => rw [results_cons, List.length_cons, ih, List.length_cons]

variable {s : Session} {line : String}

/-- A marked line is shown, and nothing is evaluated. -/
theorem runLine_of_marked {source : String} (h : s.marked? line = some source) :
    s.runLine line = ((parse source).map Expr.text, s) := by
  unfold runLine
  rw [h]

theorem runLine_of_evaluate_ok {v : Value} {w : Workspace} (h : s.marked? line = none)
    (hline : evaluate line s.workspace = .ok v w) :
    s.runLine line = (.ok v.text, { s with workspace := w }) := by
  unfold runLine
  simp only [h, hline]

theorem runLine_of_evaluate_error {e : Error} {w : Workspace} (h : s.marked? line = none)
    (hline : evaluate line s.workspace = .error e w) :
    s.runLine line = (.error e, { s with workspace := w }) := by
  unfold runLine
  simp only [h, hline]

/-- A line that is not marked leaves what its evaluation leaves. -/
theorem runLine_of_unmarked (h : s.marked? line = none) :
    (s.runLine line).2 = { s with workspace := workspaceAfter (evaluate line s.workspace) } := by
  rcases hline : evaluate line s.workspace with ⟨v, w⟩ | ⟨e, w⟩
  · rw [runLine_of_evaluate_ok h hline]
    rfl
  · rw [runLine_of_evaluate_error h hline]
    rfl

/-- A line leaves the environment as it was, or it binds one name that was free. -/
theorem environment_runLine (s : Session) (line : String) :
    (s.runLine line).2.workspace.environment = s.workspace.environment ∨
    ∃ x v, s.workspace.environment.define x v =
      .ok (s.runLine line).2.workspace.environment := by
  rcases hmark : s.marked? line with _ | source
  · rw [runLine_of_unmarked hmark]
    rcases evaluate_cases line s.workspace with henv | ⟨x, r, v, w, hnew⟩
    · exact .inl henv
    · rw [hnew.evaluate]
      exact .inr ⟨x, v, hnew.define⟩
  · rw [runLine_of_marked hmark]
    exact .inl rfl

/-- A bound name keeps its value when a line is run. -/
theorem get?_runLine {x : String} {v : Value} (h : s.workspace.environment.get? x = some v)
    (line : String) : (s.runLine line).2.workspace.environment.get? x = some v := by
  rcases environment_runLine s line with henv | ⟨y, u, hdefine⟩
  · rw [henv]
    exact h
  · have hne : x ≠ y := by
      rintro rfl
      rw [(Environment.define_eq_ok_iff.mp hdefine).1] at h
      cases h
    rw [Environment.get?_of_define hdefine, if_neg hne]
    exact h

/-- A bound name keeps its value, whatever lines are run after it was bound. -/
theorem get?_after {x : String} {v : Value} (h : s.workspace.environment.get? x = some v)
    (lines : List String) : (s.after lines).workspace.environment.get? x = some v := by
  induction lines generalizing s with
  | nil => exact h
  | cons line rest ih => exact ih (get?_runLine h line)

end Session

end ZPlane
