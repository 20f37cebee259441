import ZPlane.Evaluation

/-!
# The Supply of Identities

Evaluation hands out identities in order and takes none back. An operation on values gives a
number, fails, or builds a callable under the first unused identity, and nothing else in
evaluation builds one. So the value of any tree has an identity that was handed out by the end,
and to bind that value reserves nothing: it is the environment alone that changes.

The equations of evaluation are here as well, one for each way a step can go, so that no later
proof has to look into the evaluator.

## Main definitions

* `workspaceAfter`: The workspace that a computation leaves.
* `Issues`: What one operation on values can do.

## Theorems

* `Eval.lookup_eq`, `Eval.define_eq`: What single steps do.
* `Eval.ok_and_ok_of_bind`, `Eval.workspaceAfter_bind`: What the halves of a computation do, the
  whole does.
* `Expr.exists_eval_operation`: An operation issues a value from those of its operands.
* `Expr.eval_assign_cases`: An assignment fails where it stands or goes on to its right side.
* `Expr.eval_assign_of_error`, `Expr.eval_assign_of_bound`, `Expr.eval_assign_of_define`: What
  becomes of it then.
* `Expr.exists_of_eval_assign`: What an assignment with a value has done.
* `Expr.fresh_le_of_eval`: Identities are handed out in order.
* `Expr.ceiling_le_of_eval`: The value of a tree has an identity that was handed out.
* `Expr.exists_eval_assign`: An assignment changes the environment alone.
-/

namespace ZPlane

/-- The workspace that a computation leaves, whether it failed or not. -/
def workspaceAfter {ε α : Type} : EStateM.Result ε Workspace α → Workspace
  | .ok _ w => w
  | .error _ w => w

namespace Workspace

variable {w w' : Workspace} {x : String} {v : Value}

theorem ceiling_le (h : w.environment.get? x = some v) : v.ceiling ≤ w.fresh := by
  cases v with
  | number z => exact Nat.zero_le _
  | callable c => exact w.identity_lt h

/-- A name is bound already or it can be defined. -/
theorem define_cases (w : Workspace) (x : String) (v : Value) :
    (w.environment.contains x = true ∧ w.define x v = .error (.rebind x)) ∨
      (w.environment.contains x = false ∧ ∃ w', w.define x v = .ok w') := by
  cases hx : w.environment.contains x with
  | true => exact .inl ⟨rfl, define_of_contains hx v⟩
  | false => exact .inr ⟨rfl, exists_define (Environment.contains_eq_false_iff.mp hx) v⟩

end Workspace

namespace Eval

variable {α β : Type} {x : Eval α} {f : α → Eval β} {w w'' : Workspace}

/-- Both halves of a computation with a result have one. -/
theorem ok_and_ok_of_bind {b : β} (h : (x >>= f) w = .ok b w'') :
    ∃ a w', x w = .ok a w' ∧ f a w' = .ok b w'' := by
  change EStateM.bind x f w = _ at h
  unfold EStateM.bind at h
  rcases hx : x w with ⟨a, w'⟩ | ⟨err, w'⟩
  · rw [hx] at h
    exact ⟨a, w', rfl, h⟩
  · rw [hx] at h
    cases h

/-- What both halves of a computation do to the workspace, the whole does, if it can be done
    one after the other. -/
theorem workspaceAfter_bind {R : Workspace → Workspace → Prop}
    (htrans : ∀ {w₁ w₂ w₃}, R w₁ w₂ → R w₂ w₃ → R w₁ w₃) (hx : R w (workspaceAfter (x w)))
    (hf : ∀ a w', R w' (workspaceAfter (f a w'))) : R w (workspaceAfter ((x >>= f) w)) := by
  change R w (workspaceAfter (EStateM.bind x f w))
  unfold EStateM.bind
  rcases hxw : x w with ⟨a, w'⟩ | ⟨err, w'⟩
  · rw [hxw] at hx
    exact htrans hx (hf a w')
  · rw [hxw] at hx
    exact hx

theorem fresh_le_of_bind (hx : w.fresh ≤ (workspaceAfter (x w)).fresh)
    (hf : ∀ a w', w'.fresh ≤ (workspaceAfter (f a w')).fresh) :
    w.fresh ≤ (workspaceAfter ((x >>= f) w)).fresh :=
  workspaceAfter_bind (R := fun w u => w.fresh ≤ u.fresh) Nat.le_trans hx hf

/-- A name is looked up in the environment, and the workspace stays as it is. -/
theorem lookup_eq (x : String) (w : Workspace) :
    Eval.lookup x w = match w.environment.get? x with
      | some v => .ok v w
      | none => .error (.unknownVariable x) w := by
  change (match w.environment.get? x with
    | some value => pure value
    | none => throw (.unknownVariable x) : Eval Value) w = _
  cases w.environment.get? x <;> rfl

/-- A name is defined in the workspace, or the workspace stays as it is. -/
theorem define_eq (x : String) (v : Value) (w : Workspace) :
    (Eval.define x v >>= fun _ => pure v) w = match w.define x v with
      | .ok w' => .ok v w'
      | .error err => .error err w := by
  change EStateM.bind (EStateM.bind (Eval.ofExcept (w.define x v)) _) _ w = _
  cases w.define x v <;> rfl

/-- To reserve an identity takes none back. -/
theorem fresh_le_define (x : String) (v : Value) (w : Workspace) :
    w.fresh ≤ (workspaceAfter ((Eval.define x v >>= fun _ => pure v) w)).fresh := by
  rw [define_eq]
  rcases hdefine : w.define x v with err | w'
  · exact Nat.le_refl _
  · change w.fresh ≤ w'.fresh
    rw [(Workspace.define_eq_ok_iff.mp hdefine).2]
    exact Nat.le_max_left _ _

end Eval

/-- What one operation on values can do: give a number, fail, or build a callable under the
    first unused identity. -/
inductive Issues (w : Workspace) : EStateM.Result RuntimeError Workspace Value → Prop
  | number (z : Complex) : Issues w (.ok (.number z) w)
  | failure (e : RuntimeError) : Issues w (.error e w)
  | callable (m : Mapping) : Issues w (.ok (.callable ⟨w.fresh, m⟩) w.issue)

namespace Issues

variable {w w' : Workspace} {r : EStateM.Result RuntimeError Workspace Value}

theorem ofExcept (r : Except RuntimeError Complex) :
    Issues w ((Value.number <$> Eval.ofExcept r) w) := by
  cases r with
  | error e => exact .failure e
  | ok z => exact .number z

theorem arith (a : Arith) (l r : Value) : Issues w (l.arith a r w) := by
  cases l with
  | number z =>
    cases r with
    | number u => exact ofExcept _
    | callable c => exact .callable _
  | callable c => cases r <;> exact .callable _

theorem operate (op : Operator) (l r : Value) : Issues w (l.operate op r w) := by
  cases op with
  | arith a => exact arith a l r
  | assign => exact .failure _
  | call => exact .failure _

theorem invoke (c : Callable) (v : Value) : Issues w (c.invoke v w) := by
  cases v with
  | number z => exact ofExcept _
  | callable inner => exact .callable _

theorem fresh_le (h : Issues w r) : w.fresh ≤ (workspaceAfter r).fresh := by
  cases h with
  | number z => exact Nat.le_refl _
  | failure e => exact Nat.le_refl _
  | callable m => exact Nat.le_succ _

theorem environment_eq (h : Issues w r) : (workspaceAfter r).environment = w.environment := by
  cases h <;> rfl

theorem identity {c : Callable} (h : Issues w (.ok (.callable c) w')) :
    c.identity = w.fresh ∧ w'.fresh = w.fresh + 1 := by
  cases h with
  | callable m => exact ⟨rfl, rfl⟩

theorem ceiling_le {v : Value} (h : Issues w (.ok v w')) : v.ceiling ≤ w'.fresh := by
  cases h with
  | number z => exact Nat.zero_le _
  | callable m => exact Nat.le_refl _

end Issues

namespace Expr

variable {e r : Expr} {x : String} {v : Value} {err : RuntimeError} {w w' w'' : Workspace}

/-- An operation evaluates its operands, and issues a value from theirs. -/
theorem exists_eval_operation {op : Operator} (hop : op ≠ .assign) (l r : Expr) :
    ∃ g : Value → Value → Eval Value,
      (operation op l r).eval = (l.eval >>= fun u => r.eval >>= fun v => g u v) ∧
        ∀ u v w, Issues w (g u v w) := by
  cases op with
  | assign => exact absurd rfl hop
  | arith a => exact ⟨fun u v => u.operate (.arith a) v, rfl, fun u v w => .operate _ u v⟩
  | call =>
    refine ⟨_, rfl, fun f v w => ?_⟩
    cases f with
    | number z => exact .failure _
    | callable c => exact .invoke c v

/-- A bound name is not looked past. -/
theorem eval_assign_of_contains (h : w.environment.contains x = true) :
    (operation .assign (.name x) r).eval w = .error (.rebind x) w := by
  change (if w.environment.contains x = true then throw (.rebind x) else _ : Eval Value) w = _
  rw [if_pos h]
  rfl

/-- A free name is bound to the value of the right side. -/
theorem eval_assign_of_free (h : w.environment.contains x = false) :
    (operation .assign (.name x) r).eval w =
      (r.eval >>= fun v => Eval.define x v >>= fun _ => pure v) w := by
  change (if w.environment.contains x = true then throw (.rebind x)
    else r.eval >>= fun value => Eval.define x value >>= fun _ => pure value : Eval Value) w = _
  rw [if_neg (by simp [h])]

/-- An assignment fails where it stands, or its name is free and it goes on to its right side. -/
theorem eval_assign_cases (l r : Expr) (w : Workspace) :
    (∃ err, (operation .assign l r).eval w = .error err w) ∨
      ∃ x, l = .name x ∧ w.environment.contains x = false ∧ (operation .assign l r).eval w =
        (r.eval >>= fun v => Eval.define x v >>= fun _ => pure v) w := by
  cases l with
  | literal z => exact .inl ⟨_, rfl⟩
  | operation op l r => exact .inl ⟨_, rfl⟩
  | name x =>
    cases hbound : w.environment.contains x with
    | true => exact .inl ⟨_, eval_assign_of_contains hbound⟩
    | false => exact .inr ⟨x, rfl, hbound, eval_assign_of_free hbound⟩

theorem eval_assign_of_error (h : w.environment.contains x = false)
    (hr : r.eval w = .error err w') :
    (operation .assign (.name x) r).eval w = .error err w' := by
  rw [eval_assign_of_free h]
  change EStateM.bind r.eval _ w = _
  simp only [EStateM.bind, hr]

/-- With the value there, an assignment goes on to the definition. -/
theorem eval_assign_of_value (h : w.environment.contains x = false) (hr : r.eval w = .ok v w') :
    (operation .assign (.name x) r).eval w = (Eval.define x v >>= fun _ => pure v) w' := by
  rw [eval_assign_of_free h]
  change EStateM.bind r.eval _ w = _
  simp only [EStateM.bind, hr]

/-- An assignment looks at its name again when the value is there. -/
theorem eval_assign_of_bound (h : w.environment.contains x = false) (hr : r.eval w = .ok v w')
    (hbound : w'.environment.contains x = true) :
    (operation .assign (.name x) r).eval w = .error (.rebind x) w' := by
  rw [eval_assign_of_value h hr, Eval.define_eq, Workspace.define_of_contains hbound]

theorem eval_assign_of_define (h : w.environment.contains x = false) (hr : r.eval w = .ok v w')
    (hdefine : w'.define x v = .ok w'') :
    (operation .assign (.name x) r).eval w = .ok v w'' := by
  rw [eval_assign_of_value h hr, Eval.define_eq, hdefine]

/-- An assignment with a value has a free name on its left, and defines it as the value of its
    right side. -/
theorem exists_of_eval_assign {l : Expr} (h : (operation .assign l r).eval w = .ok v w'') :
    ∃ x w', l = .name x ∧ w.environment.contains x = false ∧ r.eval w = .ok v w' ∧
      w'.define x v = .ok w'' := by
  rcases eval_assign_cases l r w with ⟨err, heval⟩ | ⟨x, hl, hfree, heval⟩
  · rw [heval] at h
    cases h
  rw [heval] at h
  rcases Eval.ok_and_ok_of_bind h with ⟨u, w', hr, hdefine⟩
  rw [Eval.define_eq] at hdefine
  rcases hok : w'.define x u with err | w₁
  · rw [hok] at hdefine
    cases hdefine
  · rw [hok] at hdefine
    cases hdefine
    exact ⟨x, w', hl, hfree, hr, hok⟩

/-- Identities are handed out in order. -/
theorem fresh_le_of_eval (e : Expr) (w : Workspace) :
    w.fresh ≤ (workspaceAfter (e.eval w)).fresh := by
  -- Each part of the tree starts with the identities that the part before it has left.
  induction e generalizing w with
  | literal z => exact Nat.le_refl _
  | name x =>
    change w.fresh ≤ (workspaceAfter (Eval.lookup x w)).fresh
    rw [Eval.lookup_eq]
    cases w.environment.get? x <;> exact Nat.le_refl _
  | operation op l r ihl ihr =>
    by_cases hop : op = .assign
    · subst hop
      rcases eval_assign_cases l r w with ⟨err, heval⟩ | ⟨x, -, -, heval⟩
      · rw [heval]
        exact Nat.le_refl _
      · rw [heval]
        exact Eval.fresh_le_of_bind (ihr w) fun v w₁ => Eval.fresh_le_define x v w₁
    · rcases exists_eval_operation hop l r with ⟨g, heval, hissues⟩
      rw [heval]
      refine Eval.fresh_le_of_bind (ihl w) fun u w₁ => ?_
      refine Eval.fresh_le_of_bind (ihr w₁) fun v w₂ => ?_
      exact (hissues u v w₂).fresh_le

/-- The value of a tree has an identity that was handed out by the end. -/
theorem ceiling_le_of_eval (h : e.eval w = .ok v w') : v.ceiling ≤ w'.fresh := by
  -- Only the last step matters, so this needs no induction: whatever the parts have taken, the
  -- value itself was bound before or is issued at the end.
  cases e with
  | literal z =>
    cases h
    exact Nat.zero_le _
  | name x =>
    change Eval.lookup x w = _ at h
    rw [Eval.lookup_eq] at h
    cases hx : w.environment.get? x with
    | none =>
      rw [hx] at h
      cases h
    | some u =>
      rw [hx] at h
      cases h
      exact Workspace.ceiling_le hx
  | operation op l r =>
    by_cases hop : op = .assign
    · subst hop
      -- The identity was reserved if it was not handed out before.
      rcases exists_of_eval_assign h with ⟨x, w₁, -, -, -, hdefine⟩
      rw [(Workspace.define_eq_ok_iff.mp hdefine).2]
      exact Nat.le_max_right _ _
    · rcases exists_eval_operation hop l r with ⟨g, heval, hissues⟩
      rw [heval] at h
      rcases Eval.ok_and_ok_of_bind h with ⟨u, w₁, -, h₁⟩
      rcases Eval.ok_and_ok_of_bind h₁ with ⟨u', w₂, -, h₂⟩
      exact (h₂ ▸ hissues u u' w₂).ceiling_le

/-- A name that is still free when its value is there is bound to it. The value has an identity
    that was handed out, so the environment alone changes. -/
theorem exists_eval_assign (h : w.environment.contains x = false) (hr : r.eval w = .ok v w')
    (hfree : w'.environment.get? x = none) :
    ∃ w'', (operation .assign (.name x) r).eval w = .ok v w'' ∧
      w'.environment.define x v = .ok w''.environment ∧ w''.fresh = w'.fresh := by
  rcases Workspace.exists_define hfree v with ⟨w'', hdefine⟩
  rcases Workspace.define_eq_ok_iff.mp hdefine with ⟨henv, hfresh⟩
  refine ⟨w'', eval_assign_of_define h hr hdefine, henv, ?_⟩
  rw [hfresh, Nat.max_eq_left (ceiling_le_of_eval hr)]

end Expr

end ZPlane
