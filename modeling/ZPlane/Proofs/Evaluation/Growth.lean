import ZPlane.Proofs.Evaluation.Identity

/-!
# Environments Only Grow

A tree that is built by hand can have assignments anywhere: in an operand, in an argument, or
in the value of another assignment. Evaluation binds their names on the way, and what it has
bound stays when it fails later on. In all of this no binding is lost or changed, and the only
names that are bound are targets of assignments of the tree.

An assignment looks at its name twice, because the value may bind the same name. The first look
alone would let the outer binding cover the inner one. With both, a name that was assigned was
free from the start of its assignment until the value was there.

## Main definitions

* `Expr.subtrees`: The parts of an expression, itself included.
* `Expr.Assigns`: The names that an expression assigns somewhere.
* `Environment.Grows`: One environment comes from another one by binding free names.

## Theorems

* `Environment.Grows.get?_of_some`, `Environment.Grows.get?_eq`: What is bound stays, and so do
  the names that may not be bound.
* `Environment.Grows.exists_added`: The bindings that were added.
* `Expr.eval_grows`: Evaluation of any tree binds free names that the tree assigns.
* `Expr.eval_only_grows`: What evaluation can do to an environment.
-/

namespace ZPlane

namespace Expr

/-- The parts of an expression, itself included. -/
def subtrees : Expr → List Expr
  | .literal z => [.literal z]
  | .name x => [.name x]
  | .operation op l r => .operation op l r :: (l.subtrees ++ r.subtrees)

/-- The name is the target of an assignment somewhere in the expression. -/
def Assigns (e : Expr) (x : String) : Prop :=
  ∃ r, .operation .assign (.name x) r ∈ e.subtrees

variable {l r : Expr} {x : String}

theorem Assigns.left (h : l.Assigns x) (op : Operator) (r : Expr) :
    (operation op l r).Assigns x := by
  rcases h with ⟨s, hs⟩
  exact ⟨s, List.mem_cons_of_mem _ (List.mem_append_left _ hs)⟩

theorem Assigns.right (h : r.Assigns x) (op : Operator) (l : Expr) :
    (operation op l r).Assigns x := by
  rcases h with ⟨s, hs⟩
  exact ⟨s, List.mem_cons_of_mem _ (List.mem_append_right _ hs)⟩

theorem assigns_self : (operation .assign (.name x) r).Assigns x :=
  ⟨r, List.mem_cons_self⟩

end Expr

namespace Environment

/-- One environment comes from another one by binding free names with the property, one after
    the other. -/
inductive Grows (P : String → Prop) (E : Environment) : Environment → Prop
  | refl : Grows P E E
  | bind {F G : Environment} {x : String} {v : Value} : Grows P E F → P x →
      F.define x v = .ok G → Grows P E G

namespace Grows

variable {P Q : String → Prop} {E F G : Environment} {x : String} {v : Value}

theorem mono (h : Grows P E F) (hPQ : ∀ x, P x → Q x) : Grows Q E F := by
  induction h with
  | refl => exact .refl
  | bind _ hx hdefine ih => exact .bind ih (hPQ _ hx) hdefine

theorem trans (h : Grows P E F) (h' : Grows P F G) : Grows P E G := by
  induction h' with
  | refl => exact h
  | bind _ hx hdefine ih => exact .bind ih hx hdefine

/-- What is bound stays bound to the same value. -/
theorem get?_of_some (h : Grows P E F) (hx : E.get? x = some v) : F.get? x = some v := by
  induction h with
  | refl => exact hx
  | @bind F G y u _ _ hdefine ih =>
    have hne : x ≠ y := by
      rintro rfl
      rw [(define_eq_ok_iff.mp hdefine).1] at ih
      cases ih
    rw [get?_of_define hdefine, if_neg hne, ih]

/-- A name without the property stays as it is. -/
theorem get?_eq (h : Grows P E F) (hx : ¬ P x) : F.get? x = E.get? x := by
  induction h with
  | refl => rfl
  | @bind F G y u _ hy hdefine ih =>
    have hne : x ≠ y := fun hxy => hx (hxy ▸ hy)
    rw [get?_of_define hdefine, if_neg hne, ih]

/-- What is added comes in front of what was there. -/
theorem exists_bindings (h : Grows P E F) : ∃ added, F.bindings = added ++ E.bindings := by
  induction h with
  | refl => exact ⟨[], rfl⟩
  | bind _ _ hdefine ih =>
    rcases ih with ⟨added, hadded⟩
    exact ⟨_ :: added, by rw [(define_eq_ok_iff.mp hdefine).2, hadded, List.cons_append]⟩

/-- The bindings that were added are those of the names that were free and are bound. -/
theorem exists_added (h : Grows P E F) :
    ∃ added : Environment, F.bindings = added.bindings ++ E.bindings ∧
      ∀ x v, (x, v) ∈ added.bindings ↔ E.get? x = none ∧ F.get? x = some v := by
  rcases h.exists_bindings with ⟨added, hbindings⟩
  -- No name is bound twice, neither among the bindings that were added nor across.
  have hnodup := F.nodup
  rw [hbindings, List.map_append, List.nodup_append] at hnodup
  refine ⟨⟨added, hnodup.1⟩, hbindings, fun x v => ?_⟩
  rw [get?_eq_none_iff, get?_eq_some_iff, hbindings, List.mem_append]
  constructor
  · intro hadded
    have hx : x ∈ added.map Prod.fst := List.mem_map_of_mem hadded
    exact ⟨fun hold => hnodup.2.2 x hx x hold rfl, .inl hadded⟩
  · rintro ⟨hnew, hadded | hold⟩
    · exact hadded
    · exact absurd (List.mem_map_of_mem hold) hnew

end Grows

end Environment

open Environment

namespace Eval

variable {P : String → Prop} {w : Workspace}

theorem grows_bind {α β : Type} {x : Eval α} {f : α → Eval β}
    (hx : Grows P w.environment (workspaceAfter (x w)).environment)
    (hf : ∀ a w', Grows P w'.environment (workspaceAfter (f a w')).environment) :
    Grows P w.environment (workspaceAfter ((x >>= f) w)).environment :=
  workspaceAfter_bind (R := fun w u => Grows P w.environment u.environment) Grows.trans hx hf

theorem grows_define {x : String} (hx : P x) (v : Value) (w : Workspace) :
    Grows P w.environment
      (workspaceAfter ((Eval.define x v >>= fun _ => pure v) w)).environment := by
  rw [define_eq]
  rcases hdefine : w.define x v with err | w'
  · exact .refl
  · exact .bind .refl hx (Workspace.define_eq_ok_iff.mp hdefine).1

end Eval

theorem Issues.grows {P : String → Prop} {w : Workspace}
    {r : EStateM.Result RuntimeError Workspace Value} (h : Issues w r) :
    Grows P w.environment (workspaceAfter r).environment :=
  h.environment_eq ▸ .refl

namespace Expr

/-- Evaluation of any tree binds free names that the tree assigns, and does nothing else to the
    environment, also when it fails. -/
theorem eval_grows (e : Expr) (w : Workspace) :
    Grows e.Assigns w.environment (workspaceAfter (e.eval w)).environment := by
  induction e generalizing w with
  | literal z => exact .refl
  | name x =>
    change Grows _ w.environment (workspaceAfter (Eval.lookup x w)).environment
    rw [Eval.lookup_eq]
    cases w.environment.get? x <;> exact .refl
  | operation op l r ihl ihr =>
    -- What an operand assigns, the whole tree assigns, so both may grow the environment.
    have hl (w : Workspace) := (ihl w).mono fun _ hx => hx.left op r
    have hr (w : Workspace) := (ihr w).mono fun _ hx => hx.right op l
    by_cases hop : op = .assign
    · subst hop
      rcases eval_assign_cases l r w with ⟨err, heval⟩ | ⟨x, rfl, -, heval⟩
      · rw [heval]
        exact .refl
      · rw [heval]
        -- The definition looks at the name itself, whatever the value has bound.
        exact Eval.grows_bind (hr w) fun v w₁ => Eval.grows_define assigns_self v w₁
    · rcases exists_eval_operation hop l r with ⟨g, heval, hissues⟩
      rw [heval]
      refine Eval.grows_bind (hl w) fun u w₁ => ?_
      refine Eval.grows_bind (hr w₁) fun v w₂ => ?_
      exact (hissues u v w₂).grows

variable {r : Expr} {x : String} {v : Value} {w w' : Workspace}

/-- An assignment has a value only if its name was free, and then the name has that value. -/
theorem get?_of_eval_assign (h : (operation .assign (.name x) r).eval w = .ok v w') :
    w.environment.get? x = none ∧ w'.environment.get? x = some v := by
  rcases exists_of_eval_assign h with ⟨y, w₁, hy, hfree, -, hdefine⟩
  cases hy
  refine ⟨contains_eq_false_iff.mp hfree, ?_⟩
  rw [get?_of_define (Workspace.define_eq_ok_iff.mp hdefine).1, if_pos rfl]

/-- Evaluation of a tree leaves every bound name at its value, and binds only names that the
    tree assigns, whether it fails or not. Where the tree is an assignment with a value, its
    name was free and has that value now. It has one if its right side has one and has not bound
    the name. If it has bound it, the assignment fails, and what was bound stays. -/
theorem eval_only_grows (e : Expr) (w : Workspace) :
    (∀ x v, w.environment.get? x = some v →
      (workspaceAfter (e.eval w)).environment.get? x = some v) ∧
    (∀ x, w.environment.get? x = none →
      (workspaceAfter (e.eval w)).environment.get? x ≠ none →
        ∃ r, .operation .assign (.name x) r ∈ e.subtrees) ∧
    ∀ x r, e = .operation .assign (.name x) r →
      (∀ v w', e.eval w = .ok v w' →
        w.environment.get? x = none ∧ w'.environment.get? x = some v) ∧
      ∀ v w', w.environment.get? x = none → r.eval w = .ok v w' →
        (w'.environment.get? x = none → ∃ w'', e.eval w = .ok v w'' ∧
          w''.environment.bindings = (x, v) :: w'.environment.bindings ∧ w''.fresh = w'.fresh) ∧
        (w'.environment.get? x ≠ none → e.eval w = .error (.rebind x) w') := by
  have hgrows := eval_grows e w
  refine ⟨fun x v hx => hgrows.get?_of_some hx, fun x hfree hbound => ?_, ?_⟩
  · -- A name that the tree does not assign would still be free.
    by_contra hx
    rw [hgrows.get?_eq hx, hfree] at hbound
    exact hbound rfl
  · rintro x r rfl
    refine ⟨fun v w' h => get?_of_eval_assign h, fun v w' hfree hr => ?_⟩
    have hx : w.environment.contains x = false := contains_eq_false_iff.mpr hfree
    refine ⟨fun hstill => ?_, fun hbound => ?_⟩
    · rcases exists_eval_assign hx hr hstill with ⟨w'', heval, hdefine, hfresh⟩
      exact ⟨w'', heval, (define_eq_ok_iff.mp hdefine).2, hfresh⟩
    · refine eval_assign_of_bound hx hr ?_
      simpa [contains, Option.isSome_iff_ne_none] using hbound

/-- `x = (x = 1)` fails where `x` is free, and `x` is bound from then on. -/
theorem eval_only_grows_inner :
    let inner : Expr := .operation .assign (.name "x") (.literal .one)
    let e : Expr := .operation .assign (.name "x") inner
    let w := workspaceAfter (inner.eval .standard)
    e.eval .standard = .error (.rebind "x") w ∧
      w.environment.get? "x" = some (.number .one) ∧
      w.environment.get? "i" = some (.number .i) ∧
      ∃ r, .operation .assign (.name "x") r ∈ e.subtrees := by
  intro inner e w
  have hinner := eval_only_grows inner .standard
  have houter := eval_only_grows e .standard
  have hvalue : inner.eval .standard = .ok (.number .one) w := rfl
  have hbound := ((hinner.2.2 "x" _ rfl).1 _ _ hvalue).2
  have hne : w.environment.get? "x" ≠ none := hbound ▸ Option.some_ne_none _
  have hfails := ((houter.2.2 "x" inner rfl).2 _ w rfl hvalue).2 hne
  refine ⟨hfails, hbound, hinner.1 "i" _ rfl, houter.2.1 "x" rfl ?_⟩
  rw [hfails]
  exact hne

end Expr

end ZPlane
