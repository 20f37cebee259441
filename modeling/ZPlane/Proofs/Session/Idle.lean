import ZPlane.Proofs.Session.Run

/-!
# Lines That Leave No Trace

Of the lines that are run in a session, only assignments that succeed have an effect on
what comes after. A line that fails, a line that is marked, and a line that has a value
without assigning it are idle: taken out of the list, they are not missed. Every other line
answers as it did, and the environment at the end has the same names with the same
meanings.

An idle line may still use up identities, since a callable that nobody keeps has one too.
So the callables at the end may have other identities than before. But no identity is in use
that was not handed out, and so the same names have equal values as before.

The two workspaces are compared by a relation that evaluation in both keeps, and that using
up identities in one of them keeps too. `Session.related_kept` is the induction, once for
every such relation.

## Main definitions

* `kept`: What is left of a list when some of it is taken out.
* `Session.Idle`: A line that leaves no trace.

## Theorems

* `Session.runLine_of_idle`: An idle line uses up identities at most.
* `Session.result_eq_of_meanings`: A line has one answer wherever names mean the same.
* `Session.related_kept`: What a run with and a run without idle lines have in common.
* `Session.run_kept`: Idle lines can be taken out.
-/

namespace ZPlane

/-- What is left of a list whose elements say whether they stay. -/
def kept {α : Type} (l : List (α × Bool)) : List α :=
  (l.filter Prod.snd).map Prod.fst

@[simp]
theorem kept_cons_true {α : Type} (a : α) (l : List (α × Bool)) :
    kept ((a, true) :: l) = a :: kept l := rfl

namespace Session

/-- A line that fails, that is marked, or that has a value and is no assignment. -/
inductive Idle (s : Session) (line : String) : Prop
  | failed (e : Error) : (s.runLine line).1 = .error e → Idle s line
  | marked (source : String) : s.marked? line = some source → Idle s line
  | valued (e : Expr) (v : Value) (w : Workspace) : parse line = .ok e →
      (∀ target r, e ≠ .operation .assign target r) →
      evaluate line s.workspace = .ok v w → Idle s line

variable {s t : Session} {line : String}

/-- An idle line uses up identities at most. -/
theorem runLine_of_idle (h : s.Idle line) :
    (s.runLine line).2.marker = s.marker ∧
      (s.runLine line).2.workspace.environment = s.workspace.environment := by
  rcases hmark : s.marked? line with _ | source
  · rw [runLine_of_unmarked hmark]
    refine ⟨rfl, ?_⟩
    rcases evaluate_cases line s.workspace with hkept | ⟨x, r, v, w, hnew⟩
    · exact hkept
    -- A line that binds a name has an answer and is an assignment.
    · cases h with
      | failed e herr =>
        rw [runLine_of_evaluate_ok hmark hnew.evaluate] at herr
        cases herr
      | marked source hsource =>
        rw [hmark] at hsource
        cases hsource
      | valued e v w hparse' hne _ =>
        rw [hnew.parse] at hparse'
        cases hparse'
        exact absurd rfl (hne (.name x) r)
  · rw [runLine_of_marked hmark]
    exact ⟨rfl, rfl⟩

theorem marked?_eq (h : s.marker = t.marker) (line : String) : s.marked? line = t.marked? line := by
  unfold marked?
  rw [h]

/-- Two workspaces that stay related when a text is evaluated in both of them stay so when a
    line is run. -/
theorem related_runLine {R : Workspace → Workspace → Prop}
    (hboth : ∀ w u text, R w u →
      R (workspaceAfter (evaluate text w)) (workspaceAfter (evaluate text u)))
    (hmarker : s.marker = t.marker) (h : R s.workspace t.workspace) (line : String) :
    (s.runLine line).2.marker = (t.runLine line).2.marker ∧
      R (s.runLine line).2.workspace (t.runLine line).2.workspace := by
  have hmark := marked?_eq hmarker line
  rcases hs : s.marked? line with _ | source
  · rw [runLine_of_unmarked hs, runLine_of_unmarked (hmark ▸ hs)]
    exact ⟨hmarker, hboth _ _ line h⟩
  · rw [runLine_of_marked hs, runLine_of_marked (hmark ▸ hs)]
    exact ⟨hmarker, h⟩

/-- A line has one answer wherever names mean the same. -/
theorem result_eq_of_meanings (hmarker : s.marker = t.marker)
    (h : s.workspace.environment.meanings = t.workspace.environment.meanings) (line : String) :
    (s.runLine line).1 = (t.runLine line).1 := by
  have hmark := marked?_eq hmarker line
  rcases hs : s.marked? line with _ | source
  · rw [hs] at hmark
    rcases (evaluate_sameMeaning h line).inv with
      ⟨v, v', w, w', hes, het, hv, -⟩ | ⟨e, w, w', hes, het, -⟩
    · rw [runLine_of_evaluate_ok hs hes, runLine_of_evaluate_ok hmark.symm het,
        Value.text_eq_of_meaning hv]
    · rw [runLine_of_evaluate_error hs hes, runLine_of_evaluate_error hmark.symm het]
  · rw [runLine_of_marked hs, runLine_of_marked (hmark ▸ hs)]

/-- Two runs, one of them without some idle lines, stay related by whatever evaluation in both
    workspaces keeps, and whatever is kept when one workspace only uses up identities. If the
    relation is about meanings, the lines that stay have the same answers. -/
theorem related_kept {R : Workspace → Workspace → Prop}
    (hmeanings : ∀ w u, R w u → w.environment.meanings = u.environment.meanings)
    (hboth : ∀ w u text, R w u →
      R (workspaceAfter (evaluate text w)) (workspaceAfter (evaluate text u)))
    (hidle : ∀ w w' u, R w u → w'.environment = w.environment → R w' u)
    (hmarker : s.marker = t.marker) (hst : R s.workspace t.workspace)
    (lines : List (String × Bool))
    (h : ∀ before line later, lines = before ++ (line, false) :: later →
      (s.after (before.map Prod.fst)).Idle line) :
    kept ((s.results (lines.map Prod.fst)).zip (lines.map Prod.snd)) = t.results (kept lines) ∧
      R (s.after (lines.map Prod.fst)).workspace (t.after (kept lines)).workspace := by
  induction lines generalizing s t with
  | nil => exact ⟨rfl, hst⟩
  | cons first rest ih =>
    rcases first with ⟨line, stays⟩
    have hrest : ∀ before line' later, rest = before ++ (line', false) :: later →
        ((s.runLine line).2.after (before.map Prod.fst)).Idle line' := by
      rintro before line' later rfl
      exact h ((line, stays) :: before) line' later rfl
    cases stays with
    | true =>
      rcases related_runLine hboth hmarker hst line with ⟨hmarker', hst'⟩
      rcases ih hmarker' hst' hrest with ⟨hanswers, hend⟩
      refine ⟨?_, hend⟩
      simp only [List.map_cons, results_cons, List.zip_cons_cons, kept_cons_true]
      rw [hanswers, result_eq_of_meanings hmarker (hmeanings _ _ hst) line]
    | false =>
      rcases runLine_of_idle (h [] line rest rfl) with ⟨hmarker', henv⟩
      exact ih (hmarker'.trans hmarker) (hidle _ _ _ hst henv) hrest

/-- Idle lines can be taken out. Every line that stays answers as it did, and at the end the
    same names were bound in the same order and mean the same, and the same names have equal
    values. A name that is bound at some point has the same value ever after, whether the
    lines after it succeed or not. -/
theorem run_kept (s : Session) (lines : List (String × Bool))
    (h : ∀ before line later, lines = before ++ (line, false) :: later →
      (s.after (before.map Prod.fst)).Idle line) :
    s.results (kept lines) = kept ((s.results (lines.map Prod.fst)).zip (lines.map Prod.snd)) ∧
    (s.after (kept lines)).workspace.environment.meanings =
      (s.after (lines.map Prod.fst)).workspace.environment.meanings ∧
    (∀ x y,
      ((s.after (kept lines)).workspace.environment.get? x ==
          (s.after (kept lines)).workspace.environment.get? y) =
        ((s.after (lines.map Prod.fst)).workspace.environment.get? x ==
          (s.after (lines.map Prod.fst)).workspace.environment.get? y)) ∧
    ∀ before later x v, (s.after before).workspace.environment.get? x = some v →
      (s.after (before ++ later)).workspace.environment.get? x = some v := by
  have hsame := related_kept
    (R := fun w u => w.environment.meanings = u.environment.meanings)
    (fun w u hwu => hwu) (fun w u text hwu => (evaluate_sameMeaning hwu text).meanings_eq)
    (fun w w' u hwu henv => by rw [henv, hwu]) rfl rfl lines h
  refine ⟨hsame.1.symm, hsame.2.symm, ?_, ?_⟩
  · intro x y
    have halike := related_kept (R := Workspace.Alike) (fun w u hwu => hwu.meanings)
      (fun w u text hwu => hwu.evaluate text)
      (fun w w' u hwu henv => hwu.of_environment_eq henv) rfl (.refl _) lines h
    exact (halike.2.equal x y).symm
  · intro before later x v hx
    rw [after_append]
    exact get?_after hx later

/-- A sum that nobody keeps, a marked line and an assignment to a bound name leave no trace
    between two assignments. -/
theorem run_kept_functions : ∃ lines : List (String × Bool),
    (∀ before line later, lines = before ++ (line, false) :: later →
      ((Session.new ',').after (before.map Prod.fst)).Idle line) ∧
    (Session.new ',').results ["f = sin", "g = f"] =
      kept (((Session.new ',').results (lines.map Prod.fst)).zip (lines.map Prod.snd)) ∧
    ((Session.new ',').after ["f = sin", "g = f"]).workspace.environment.meanings =
      ((Session.new ',').after (lines.map Prod.fst)).workspace.environment.meanings := by
  let lines := [("sin + cos", false), ("f = sin", true), (",f", false), ("f = q", false),
    ("g = f", true)]
  let sum : Expr := .operation (.arith .add) (.name "sin") (.name "cos")
  have hsum : parse "sin + cos" = .ok sum := by cbv
  have hf : parse "f = sin" = .ok (.operation .assign (.name "f") (.name "sin")) := by cbv
  have hq : parse "f = q" = .ok (.operation .assign (.name "f") (.name "q")) := by cbv
  -- The sum takes an identity, and then `f` is bound.
  let s₁ : Session := ⟨Workspace.standard.issue, ','⟩
  let s₂ : Session :=
    ⟨workspaceAfter ((Expr.operation .assign (.name "f") (.name "sin")).eval s₁.workspace), ','⟩
  have h₁ : ((Session.new ',').runLine "sin + cos").2 = s₁ := by
    rw [runLine_of_evaluate_ok rfl (evaluate_of_eval_ok hsum rfl)]
    rfl
  have h₂ : (s₁.runLine "f = sin").2 = s₂ := by
    rw [runLine_of_evaluate_ok rfl (evaluate_of_eval_ok hf rfl)]
    rfl
  have h₄ : s₂.runLine "f = q" = (.error (.runtime (.rebind "f")), s₂) :=
    runLine_of_evaluate_error rfl (evaluate_of_eval_error hq rfl)
  have hidle : ∀ before line later, lines = before ++ (line, false) :: later →
      ((Session.new ',').after (before.map Prod.fst)).Idle line := by
    intro before line later h
    rcases before with _ | ⟨_, _ | ⟨_, _ | ⟨_, _ | ⟨_, _ | ⟨_, _⟩⟩⟩⟩⟩ <;> simp [lines] at h
    · rcases h with ⟨rfl, -⟩
      exact .valued sum _ _ hsum (by simp [sum]) (evaluate_of_eval_ok hsum rfl)
    · rcases h with ⟨rfl, rfl, rfl, -⟩
      change (((Session.new ',').runLine _).2.runLine _).2.Idle _
      rw [h₁, h₂]
      exact .marked "f" rfl
    · rcases h with ⟨rfl, rfl, rfl, rfl, -⟩
      change ((((Session.new ',').runLine _).2.runLine _).2.runLine _).2.Idle _
      rw [h₁, h₂]
      exact .failed _ (congrArg Prod.fst h₄)
  have hkept := run_kept (Session.new ',') lines hidle
  exact ⟨lines, hidle, hkept.1, hkept.2.1⟩

end Session

end ZPlane
