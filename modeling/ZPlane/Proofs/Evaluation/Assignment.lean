import ZPlane.Proofs.Evaluation.Meaning
import ZPlane.Proofs.Program

/-!
# Assignments Are All or Nothing

Evaluation of a tree may bind names and fail later on, and then it keeps what it did. For
a text this cannot happen. An assignment in it stands at the root, so its name is bound
last, after the value is there, and what comes before that binds nothing. A text that fails
leaves the environment as it was, and one that succeeds adds one binding or none.

A name is looked at before the value to be bound to it is. A bound name therefore fails as
such, also where the value has no value of its own.

## Theorems

* `Expr.environment_eq_of_ok`, `Expr.environment_eq_of_error`: An expression without
  assignments leaves the environment as it was.
* `Expr.exists_eval_assign_of_ok`: An assignment whose right side has a value.
* `evaluate_assign`: The ways an assignment can go.
* `evaluate_binds_once`: What evaluating a text does to the environment.
-/

namespace ZPlane

namespace Expr

variable {e r : Expr} {x : String} {v : Value} {err : RuntimeError} {w w' : Workspace}

theorem environment_eq_of_ok (he : e.AssignFree) (h : e.eval w = .ok v w') :
    w'.environment = w.environment := by
  have hgives := gives_eval he w
  rw [h] at hgives
  exact hgives.of_ok.2

theorem environment_eq_of_error (he : e.AssignFree) (h : e.eval w = .error err w') :
    w'.environment = w.environment := by
  have hgives := gives_eval he w
  rw [h] at hgives
  exact hgives.of_error.2

/-- The name is still free when its value is there, so it is bound. -/
theorem exists_eval_assign_of_ok (hr : r.AssignFree) (hx : w.environment.contains x = false)
    (h : r.eval w = .ok v w') :
    ∃ w'', (operation .assign (.name x) r).eval w = .ok v w'' ∧
      w.environment.define x v = .ok w''.environment ∧ w''.fresh = w'.fresh := by
  have henv := environment_eq_of_ok hr h
  have hfree := Environment.contains_eq_false_iff.mp hx
  have hassign := exists_eval_assign hx h (henv ▸ hfree)
  rwa [henv] at hassign

end Expr

section Texts

variable {text x : String} {e r : Expr} {v : Value} {w w' : Workspace}

theorem evaluate_of_parse_error {err : Error} (h : parse text = .error err) (w : Workspace) :
    evaluate text w = .error err w := by
  unfold evaluate
  rw [h]

theorem evaluate_of_eval_ok (h : parse text = .ok e) (he : e.eval w = .ok v w') :
    evaluate text w = .ok v w' := by
  unfold evaluate
  simp only [h, he]

theorem evaluate_of_eval_error {err : RuntimeError} (h : parse text = .ok e)
    (he : e.eval w = .error err w') : evaluate text w = .error (.runtime err) w' := by
  unfold evaluate
  simp only [h, he]

/-- A text with a value was read, and its tree has the value. -/
theorem exists_eval_of_evaluate_ok (h : evaluate text w = .ok v w') :
    ∃ e, parse text = .ok e ∧ e.eval w = .ok v w' := by
  rcases hparse : parse text with err | e
  · rw [evaluate_of_parse_error hparse] at h
    cases h
  rcases heval : e.eval w with ⟨u, w₁⟩ | ⟨err, w₁⟩
  · rw [evaluate_of_eval_ok hparse heval] at h
    cases h
    exact ⟨e, rfl, heval⟩
  · rw [evaluate_of_eval_error hparse heval] at h
    cases h

/-- A text without assignments leaves the environment as it was, whether it fails or not. -/
theorem environment_eq_of_evaluate (h : parse text = .ok e) (he : e.AssignFree) :
    (∀ v w', evaluate text w = .ok v w' → w'.environment = w.environment) ∧
      ∀ err w', evaluate text w = .error err w' → w'.environment = w.environment := by
  rcases heval : e.eval w with ⟨v, s⟩ | ⟨err, s⟩
  · have henv := Expr.environment_eq_of_ok he heval
    rw [evaluate_of_eval_ok h heval]
    refine ⟨?_, ?_⟩
    · rintro v' w' ⟨⟩
      exact henv
    · rintro err w' ⟨⟩
  · have henv := Expr.environment_eq_of_error he heval
    rw [evaluate_of_eval_error h heval]
    refine ⟨?_, ?_⟩
    · rintro v w' ⟨⟩
    · rintro err' w' ⟨⟩
      exact henv

/-- An assignment that was read from a text: the name may be bound already, the value may
    have no value, or the name is bound to it. -/
theorem evaluate_assign (hr : r.AssignFree)
    (h : parse text = .ok (.operation .assign (.name x) r)) (w : Workspace) :
    (w.environment.contains x = true → evaluate text w = .error (.runtime (.rebind x)) w) ∧
    (w.environment.contains x = false →
      (∀ err w', r.eval w = .error err w' → evaluate text w = .error (.runtime err) w') ∧
      ∀ v w', r.eval w = .ok v w' → ∃ w'', evaluate text w = .ok v w'' ∧
        w.environment.define x v = .ok w''.environment ∧ w''.fresh = w'.fresh) := by
  refine ⟨fun hx => ?_, fun hx => ⟨fun err w' herr => ?_, fun v w' hok => ?_⟩⟩
  · exact evaluate_of_eval_error h (Expr.eval_assign_of_contains hx)
  · exact evaluate_of_eval_error h (Expr.eval_assign_of_error hx herr)
  · rcases Expr.exists_eval_assign_of_ok hr hx hok with ⟨w'', heval, hbinds⟩
    exact ⟨w'', evaluate_of_eval_ok h heval, hbinds⟩

/-- A text that fails leaves the environment as it was. -/
theorem environment_eq_of_evaluate_error {err : Error} (h : evaluate text w = .error err w') :
    w'.environment = w.environment := by
  rcases hparse : parse text with err' | e
  · rw [evaluate_of_parse_error hparse] at h
    cases h
    rfl
  rcases assignFree_or_assign_of_parse hparse with hfree | ⟨x, r, rfl, hfree⟩
  · exact (environment_eq_of_evaluate hparse hfree).2 err w' h
  rcases evaluate_assign hfree hparse w with ⟨hbound, hfresh⟩
  by_cases hx : w.environment.contains x = true
  · rw [hbound hx] at h
    cases h
    rfl
  -- The name is free, so only the right side can have failed.
  rcases hfresh (by simpa using hx) with ⟨hfails, hvalue⟩
  rcases heval : r.eval w with ⟨v, s⟩ | ⟨err', s⟩
  · rcases hvalue v s heval with ⟨s', hs', -⟩
    rw [hs'] at h
    cases h
  · rw [hfails err' s heval] at h
    cases h
    exact Expr.environment_eq_of_error hfree heval

end Texts

/-- Evaluating a text is all or nothing, and binds a name at most once. A text that fails
    leaves the environment as it was, for whatever reason it fails, and so does one that is
    no assignment. An assignment has a name on its left. If the name is bound, it fails for
    that. Otherwise its result is that of its right side, and if that is a value, the one
    thing that changes in the environment is that the name is bound to it. -/
theorem evaluate_binds_once (text : String) (w : Workspace) :
    (∀ err w', evaluate text w = .error err w' → w'.environment = w.environment) ∧
    (∀ e v w', parse text = .ok e → (∀ target r, e ≠ .operation .assign target r) →
      evaluate text w = .ok v w' → w'.environment = w.environment) ∧
    ∀ target r, parse text = .ok (.operation .assign target r) → ∃ x, target = .name x ∧
      (w.environment.contains x = true → evaluate text w = .error (.runtime (.rebind x)) w) ∧
      (w.environment.contains x = false →
        (∀ err w', r.eval w = .error err w' → evaluate text w = .error (.runtime err) w') ∧
        ∀ v w', r.eval w = .ok v w' → ∃ w'', evaluate text w = .ok v w'' ∧
          w''.environment.bindings = (x, v) :: w.environment.bindings ∧
          w''.fresh = w'.fresh) := by
  refine ⟨fun err w' h => environment_eq_of_evaluate_error h, ?_, ?_⟩
  · intro e v w' hparse hne heval
    rcases assignFree_or_assign_of_parse hparse with hfree | ⟨x, r, rfl, -⟩
    · exact (environment_eq_of_evaluate hparse hfree).1 v w' heval
    · exact absurd rfl (hne (.name x) r)
  · intro target r hparse
    rcases assignFree_or_assign_of_parse hparse with hfree | ⟨x, r', heq, hfree⟩
    · exact absurd rfl hfree.1
    · cases heq
      rcases evaluate_assign hfree hparse w with ⟨hbound, hnew⟩
      refine ⟨x, rfl, hbound, fun hx => ⟨(hnew hx).1, fun v w' hok => ?_⟩⟩
      rcases (hnew hx).2 v w' hok with ⟨w'', heval, hdefine, hfresh⟩
      exact ⟨w'', heval, (Environment.define_eq_ok_iff.mp hdefine).2, hfresh⟩

/-- A bound name fails before its value is looked at, and a free one is bound. -/
theorem evaluate_binds_once_names : ∃ w : Workspace, w.environment.contains "i" = true ∧
    evaluate "i = q" w = .error (.runtime (.rebind "i")) w ∧
    ∃ w', evaluate "w = i" w = .ok (.number .i) w' ∧
      w'.environment.bindings = ("w", .number .i) :: w.environment.bindings ∧
      w'.fresh = w.fresh := by
  refine ⟨.standard, rfl, ?_, ?_⟩
  · have hparse : parse "i = q" = .ok (.operation .assign (.name "i") (.name "q")) := by
      cbv
    rcases (evaluate_binds_once "i = q" .standard).2.2 _ _ hparse with ⟨x, ⟨⟩, hbound, -⟩
    exact hbound rfl
  · have hparse : parse "w = i" = .ok (.operation .assign (.name "w") (.name "i")) := by
      cbv
    rcases (evaluate_binds_once "w = i" .standard).2.2 _ _ hparse with ⟨x, ⟨⟩, -, hfree⟩
    exact (hfree rfl).2 _ .standard rfl

end ZPlane
