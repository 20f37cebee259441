import ZPlane.Proofs.Evaluation.Growth
import ZPlane.Proofs.Evaluation.Independence

/-!
# What a Tree Depends On and What It Changes

The names of a tree are a frame around its evaluation. Two environments that agree on them can
differ anywhere else, and evaluation finds the same value or fails for the same reason in both.
It adds the same bindings to both, and everything outside the frame stays as it was.

That the environments agree afterwards does not say this yet: nothing in it keeps a binding of
one of them from being new and that of the other from being old. But environments only grow. So
what was added is told from what names mean before and after, and there the two agree.

## Theorems

* `Expr.Assigns.mem_names`: The names that a tree assigns are names of the tree.
* `Environment.Grows.exists_meanings`: What was added, told from before and after.
* `Environment.Grows.exists_perm`: Environments that agree before and after have grown by the
  same bindings.
* `Expr.eval_local`: Evaluation depends on the names of a tree and changes nothing else.
-/

namespace ZPlane

theorem Expr.Assigns.mem_names {e : Expr} {x : String} (h : e.Assigns x) : x ∈ e.names := by
  rcases h with ⟨s, hs⟩
  induction e with
  | literal z => simp [subtrees] at hs
  | name y => simp [subtrees] at hs
  | operation op l r ihl ihr =>
    rw [mem_names_operation]
    rcases List.mem_cons.mp hs with heq | hs
    · cases heq
      exact .inl (by simp)
    rcases List.mem_append.mp hs with hs | hs
    · exact .inl (ihl hs)
    · exact .inr (ihr hs)

/-- No name is bound twice, so none is listed twice with what it means. -/
theorem Environment.nodup_meanings (env : Environment) : env.meanings.Nodup := by
  refine List.Nodup.of_map Prod.fst ?_
  simpa [meanings, Function.comp_def] using env.nodup

namespace Environment.Grows

variable {E E' F F' : Environment}

/-- The bindings that were added mean what their names mean afterwards, and these are the names
    that meant nothing before. -/
theorem exists_meanings {P : String → Prop} (h : Grows P E F) :
    ∃ added : Environment, F.bindings = added.bindings ++ E.bindings ∧
      ∀ x m, (x, m) ∈ added.meanings ↔
        (E.get? x).map Value.meaning = none ∧ (F.get? x).map Value.meaning = some m := by
  rcases h.exists_added with ⟨added, hbindings, hmem⟩
  refine ⟨added, hbindings, fun x m => ?_⟩
  simp only [Option.map_eq_none_iff, Option.map_eq_some_iff]
  constructor
  · intro h
    rcases List.mem_map.mp h with ⟨⟨y, v⟩, hv, heq⟩
    cases heq
    rcases (hmem x v).mp hv with ⟨hfree, hbound⟩
    exact ⟨hfree, v, hbound, rfl⟩
  · rintro ⟨hfree, v, hbound, rfl⟩
    exact List.mem_map.mpr ⟨(x, v), (hmem x v).mpr ⟨hfree, hbound⟩, rfl⟩

/-- Environments that agree before and after have grown by the same bindings. -/
theorem exists_perm {names : List String} (h : Grows (· ∈ names) E F)
    (h' : Grows (· ∈ names) E' F') (hbefore : AgreeOn names E E') (hafter : AgreeOn names F F') :
    ∃ added added' : Environment, F.bindings = added.bindings ++ E.bindings ∧
      F'.bindings = added'.bindings ++ E'.bindings ∧ added.meanings.Perm added'.meanings := by
  rcases h.exists_meanings with ⟨added, hbindings, hmem⟩
  rcases h'.exists_meanings with ⟨added', hbindings', hmem'⟩
  refine ⟨added, added', hbindings, hbindings', ?_⟩
  rw [List.perm_ext_iff_of_nodup added.nodup_meanings added'.nodup_meanings]
  rintro ⟨x, m⟩
  rw [hmem, hmem']
  by_cases hx : x ∈ names
  · rw [hbefore x hx, hafter x hx]
  · -- Nothing else was bound in either of them.
    rw [h.get?_eq hx, h'.get?_eq hx]
    cases E.get? x <;> cases E'.get? x <;> simp

end Environment.Grows

open Environment

namespace Agrees

variable {names : List String} {r r' : EStateM.Result RuntimeError Workspace Value}

theorem outcome_eq (h : Agrees names r r') : outcome r = outcome r' := by
  cases h with
  | ok hv _ => exact congrArg Except.ok hv
  | error _ => rfl

theorem agreeOn (h : Agrees names r r') :
    AgreeOn names (workspaceAfter r).environment (workspaceAfter r').environment := by
  cases h with
  | ok _ henv => exact henv
  | error henv => exact henv

end Agrees

namespace Expr

/-- In environments that agree on the names of a tree, evaluation has one outcome and adds the
    same bindings, and leaves every other name as it was in each. -/
theorem eval_local {e : Expr} {w u : Workspace}
    (h : AgreeOn e.names w.environment u.environment) :
    outcome (e.eval w) = outcome (e.eval u) ∧
    (∃ added added' : Environment,
      (workspaceAfter (e.eval w)).environment.bindings =
        added.bindings ++ w.environment.bindings ∧
      (workspaceAfter (e.eval u)).environment.bindings =
        added'.bindings ++ u.environment.bindings ∧
      added.meanings.Perm added'.meanings) ∧
    ∀ x ∉ e.names,
      (workspaceAfter (e.eval w)).environment.get? x = w.environment.get? x ∧
      (workspaceAfter (e.eval u)).environment.get? x = u.environment.get? x := by
  have hagrees := eval_agrees (fun _ hx => hx) h
  -- For the frame it is enough that what is assigned is among the names.
  have hgrows (w : Workspace) := (eval_grows e w).mono fun _ hx => hx.mem_names
  refine ⟨hagrees.outcome_eq, (hgrows w).exists_perm (hgrows u) h hagrees.agreeOn, ?_⟩
  intro x hx
  exact ⟨(hgrows w).get?_eq hx, (hgrows u).get?_eq hx⟩

/-- `sqrt + (x = i)` is a callable under another identity where more callables were built, and
    whether `y` is bound makes no difference to it. -/
theorem eval_local_sum :
    let e : Expr := .operation (.arith .add) (.name "sqrt")
      (.operation .assign (.name "x") (.name "i"))
    let u := workspaceAfter ((Expr.operation .assign (.name "y") (.literal .one)).eval
      Workspace.standard.issue)
    outcome (e.eval .standard) = outcome (e.eval u) ∧
      (workspaceAfter (e.eval .standard)).environment.get? "y" = none ∧
      (workspaceAfter (e.eval u)).environment.get? "y" = some (.number .one) := by
  intro e u
  have hy : "y" ∉ e.names := by decide
  have hdefine : Workspace.standard.environment.define "y" (.number .one) = .ok u.environment :=
    rfl
  have hagree : AgreeOn e.names Workspace.standard.environment u.environment := by
    intro x hx
    have hne : x ≠ "y" := by
      rintro rfl
      exact hy hx
    rw [get?_of_define hdefine, if_neg hne]
  rcases eval_local hagree with ⟨houtcome, -, hkept⟩
  exact ⟨houtcome, hkept "y" hy⟩

end Expr

end ZPlane
