import ZPlane.Proofs.Evaluation.Growth

/-!
# Histories of Environments

A host holds several environments and evaluates texts in them, in any order. It can also copy
an environment and go on with both, or add a new one. The environments know nothing of each
other, but they draw on one supply of identities, and through copies they share callables.

Whatever a host does, it hands out identities in order. So every callable that has come up so
far has an identity below the first unused one, whether it was bound or only computed on the
way to something else.

## Main definitions

* `Host`: Environments side by side.
* `Host.workspace?`: One of the environments, to evaluate in.
* `Event`: What a host can do.
* `Host.step`, `Host.after`: The host after an event, and after several.
* `Expr.Computes`: The values that come up in an evaluation.
* `Host.Existing`: The callables that have come up so far.

## Theorems

* `Host.environment_step`, `Host.environment_of_step`: What an event does to one environment, and
  where an environment comes from.
* `Host.get?_step`: What is bound stays bound to the same value.
* `Host.Existing.identity_lt`: Callables that exist have identities that were handed out.
* `Host.existing_of_binds`: What is bound anywhere exists.
-/

namespace ZPlane

/-- Environments side by side, with the first identity that no callable has yet. -/
structure Host where
  environments : List Environment
  fresh : Nat
  /-- Callables that are bound have identities that were handed out. -/
  identity_lt : ∀ {env : Environment}, env ∈ environments → ∀ {x : String} {c : Callable},
    env.get? x = some (.callable c) → c.identity < fresh

/-- What a host can do. -/
inductive Event
  /-- Evaluate a text in the environment of this number. -/
  | evaluate (k : Nat) (text : String)
  /-- Add a copy of the environment of this number. -/
  | copy (k : Nat)
  /-- Add an environment that binds nothing. -/
  | empty
  /-- Add an environment with the constants and functions of the language. -/
  | standard

namespace Host

variable {h : Host} {k : Nat} {env : Environment} {w : Workspace}

/-- The environment of a number, with the supply of the host. -/
def workspace? (h : Host) (k : Nat) : Option Workspace :=
  match hk : h.environments[k]? with
  | some env => some ⟨env, h.fresh, h.identity_lt (List.mem_of_getElem? hk)⟩
  | none => none

theorem workspace?_eq_some_iff : h.workspace? k = some w ↔
    h.environments[k]? = some w.environment ∧ w.fresh = h.fresh := by
  unfold workspace?
  split
  · next hk => simp [hk, Workspace.ext_iff, eq_comm]
  · next hk => simp [hk]

theorem exists_workspace? (henv : h.environments[k]? = some env) :
    ∃ w, h.workspace? k = some w ∧ w.environment = env :=
  ⟨⟨env, h.fresh, h.identity_lt (List.mem_of_getElem? henv)⟩,
    workspace?_eq_some_iff.mpr ⟨henv, rfl⟩, rfl⟩

/-- The host with another environment in the place of one, and with what is left of the supply
    then. -/
def replace (h : Host) (k : Nat) (w : Workspace) (hle : h.fresh ≤ w.fresh) : Host where
  environments := h.environments.set k w.environment
  fresh := w.fresh
  identity_lt henv _ _ hx := by
    rcases List.mem_or_eq_of_mem_set henv with hold | rfl
    · exact Nat.lt_of_lt_of_le (h.identity_lt hold hx) hle
    · exact w.identity_lt hx

/-- The host with an environment added behind the others, or with none if there is none to add.
    The environment may use identities of the supply up to the given number. -/
def add (h : Host) (added : Option Environment) (used : Nat)
    (hadded : ∀ env ∈ added, ∀ {x : String} {c : Callable},
      env.get? x = some (.callable c) → c.identity < h.fresh + used) : Host where
  environments := h.environments ++ added.toList
  fresh := h.fresh + used
  identity_lt henv _ _ hx := by
    rcases List.mem_append.mp henv with hold | hnew
    · exact Nat.lt_add_right used (h.identity_lt hold hx)
    · exact hadded _ (Option.mem_toList.mp hnew) hx

/-- The environment that an event adds, behind those that are there. -/
def added (h : Host) : Event → Option Environment
  | .evaluate _ _ => none
  | .copy k => h.environments[k]?
  | .empty => some .empty
  | .standard => some (.standard h.fresh)

/-- The identities that an event uses for the environment that it adds. -/
def used : Event → Nat
  | .standard => Environment.functions.length
  | _ => 0

theorem identity_lt_of_added {event : Event} (henv : env ∈ h.added event) {x : String}
    {c : Callable} (hx : env.get? x = some (.callable c)) : c.identity < h.fresh + used event := by
  cases event with
  | evaluate k text => cases henv
  | copy k => exact h.identity_lt (List.mem_of_getElem? henv) hx
  | empty =>
    cases henv
    cases hx
  | standard =>
    cases henv
    exact Environment.identity_lt_of_standard hx

theorem fresh_le_workspaceAfter (hw : h.workspace? k = some w) (text : String) :
    h.fresh ≤ (workspaceAfter (evaluate text w)).fresh :=
  (workspace?_eq_some_iff.mp hw).2 ▸ fresh_le_of_evaluate text w

/-- The host after an event. There may be no environment of the number that is asked for, and
    then nothing happens. -/
def step (h : Host) (event : Event) : Host :=
  match event with
  | .evaluate k text =>
    match hw : h.workspace? k with
    | some w =>
      h.replace k (workspaceAfter (evaluate text w)) (fresh_le_workspaceAfter hw text)
    | none => h
  | event => h.add (h.added event) (used event) fun _ henv _ _ hx => identity_lt_of_added henv hx

theorem step_evaluate (hw : h.workspace? k = some w) (text : String) :
    h.step (.evaluate k text) =
      h.replace k (workspaceAfter (evaluate text w)) (fresh_le_workspaceAfter hw text) := by
  simp only [step]
  split
  · next hw' =>
    rw [hw] at hw'
    cases hw'
    rfl
  · next hw' =>
    rw [hw] at hw'
    cases hw'

/-- An evaluation replaces one environment, or nothing happens. -/
theorem step_evaluate_cases (h : Host) (k : Nat) (text : String) :
    h.step (.evaluate k text) = h ∨ ∃ w hle, h.step (.evaluate k text) = h.replace k w hle := by
  simp only [step]
  split
  · next w hw => exact .inr ⟨_, fresh_le_workspaceAfter hw text, rfl⟩
  · exact .inl rfl

/-- The host after events. -/
def after (h : Host) (events : List Event) : Host :=
  events.foldl step h

@[simp]
theorem after_concat (h : Host) (events : List Event) (event : Event) :
    h.after (events ++ [event]) = (h.after events).step event :=
  List.foldl_concat ..

/-- Whether a callable is bound in one of the environments. -/
def Binds (h : Host) (c : Callable) : Prop :=
  ∃ env ∈ h.environments, ∃ x, env.get? x = some (.callable c)

end Host

/-- The values that come up when an expression is evaluated, also those that are only operands
    of others, and also when the evaluation fails later on. -/
inductive Expr.Computes : Expr → Workspace → Value → Prop
  | result {e : Expr} {w w' : Workspace} {v : Value} : e.eval w = .ok v w' → Computes e w v
  | left {op : Operator} {l r : Expr} {w : Workspace} {v : Value} : op ≠ .assign →
      Computes l w v → Computes (.operation op l r) w v
  | right {op : Operator} {l r : Expr} {w w' : Workspace} {u v : Value} : op ≠ .assign →
      l.eval w = .ok u w' → Computes r w' v → Computes (.operation op l r) w v
  | assigned {x : String} {r : Expr} {w : Workspace} {v : Value} :
      w.environment.contains x = false → Computes r w v →
      Computes (.operation .assign (.name x) r) w v

namespace Host

/-- The callables that come up in an event. -/
def Yields (h : Host) (c : Callable) : Event → Prop
  | .evaluate k text => ∃ w e, h.workspace? k = some w ∧ parse text = .ok e ∧
      e.Computes w (.callable c)
  | .copy _ => False
  | .empty => False
  | .standard => ∃ x, (Environment.standard h.fresh).get? x = some (.callable c)

/-- The callables that exist after events: those that were bound at the start, and all that
    have come up since. -/
inductive Existing (h : Host) : List Event → Callable → Prop
  | bound {c : Callable} : h.Binds c → Existing h [] c
  | earlier {events : List Event} {event : Event} {c : Callable} :
      Existing h events c → Existing h (events ++ [event]) c
  | yielded {events : List Event} {event : Event} {c : Callable} :
      (h.after events).Yields c event → Existing h (events ++ [event]) c

end Host

section Supply

variable {w w' : Workspace}

/-- What comes after the first half of a computation takes no identity back. -/
theorem Eval.fresh_le_bind {α β : Type} {x : Eval α} {f : α → Eval β}
    (hf : ∀ a w', w'.fresh ≤ (workspaceAfter (f a w')).fresh) :
    (workspaceAfter (x w)).fresh ≤ (workspaceAfter ((x >>= f) w)).fresh := by
  change _ ≤ (workspaceAfter (EStateM.bind x f w)).fresh
  unfold EStateM.bind
  rcases x w with ⟨a, w'⟩ | ⟨err, w'⟩
  · exact hf a w'
  · exact Nat.le_refl _

/-- Whatever comes up in an evaluation has an identity that was handed out by its end. -/
theorem Expr.Computes.ceiling_le {e : Expr} {v : Value} (h : e.Computes w v) :
    v.ceiling ≤ (workspaceAfter (e.eval w)).fresh := by
  -- What came up in a part was handed out by the end of the part, and what comes after the part
  -- takes nothing back, also where it fails.
  induction h with
  | @result e w w' v heval =>
    rw [heval]
    exact ceiling_le_of_eval heval
  | @left op l r w v hop _ ih =>
    rcases exists_eval_operation hop l r with ⟨g, heval, hissues⟩
    rw [heval]
    refine Nat.le_trans ih (Eval.fresh_le_bind fun u w₁ => ?_)
    exact Eval.fresh_le_of_bind (fresh_le_of_eval r w₁) fun v w₂ => (hissues u v w₂).fresh_le
  | @right op l r w w₁ u v hop hu _ ih =>
    rcases exists_eval_operation hop l r with ⟨g, heval, hissues⟩
    have hrest : (workspaceAfter (r.eval w₁)).fresh ≤
        (workspaceAfter ((r.eval >>= fun v => g u v) w₁)).fresh :=
      Eval.fresh_le_bind fun v w₂ => (hissues u v w₂).fresh_le
    have hbind : (l.eval >>= fun u => r.eval >>= fun v => g u v) w =
        (r.eval >>= fun v => g u v) w₁ := by
      change EStateM.bind l.eval _ w = _
      unfold EStateM.bind
      rw [hu]
    rw [heval, hbind]
    exact Nat.le_trans ih hrest
  | @assigned x r w v hx _ ih =>
    rw [eval_assign_of_free hx]
    refine Nat.le_trans ih (Eval.fresh_le_bind fun u w₁ => ?_)
    exact Eval.fresh_le_define x u w₁

end Supply

namespace Host

variable {h : Host} {k : Nat} {env env' : Environment} {w : Workspace}

/-- Identities are handed out in order. -/
theorem fresh_le_step (h : Host) (event : Event) : h.fresh ≤ (h.step event).fresh := by
  cases event with
  | evaluate k text =>
    rcases step_evaluate_cases h k text with hsame | ⟨w, hle, hstep⟩
    · rw [hsame]
    · rw [hstep]
      exact hle
  | copy k => exact Nat.le_add_right _ _
  | empty => exact Nat.le_add_right _ _
  | standard => exact Nat.le_add_right _ _

/-- What an event does to an environment that is there: nothing, or it binds a free name. -/
theorem environment_step (hw : h.workspace? k = some w) (event : Event) :
    (h.step event).environments[k]? = some w.environment ∨
    ∃ text x r v w', event = .evaluate k text ∧ Introduces text w x r v w' ∧
      (h.step event).environments[k]? = some w'.environment := by
  have henv := (workspace?_eq_some_iff.mp hw).1
  have hk : k < h.environments.length := (List.getElem?_eq_some_iff.mp henv).1
  -- What is added comes behind the environments that are there.
  have hadded (more : List Environment) :
      (h.environments ++ more)[k]? = some w.environment := by
    rw [List.getElem?_append_left hk, henv]
  cases event with
  | copy j => exact .inl (hadded _)
  | empty => exact .inl (hadded _)
  | standard => exact .inl (hadded _)
  | evaluate j text =>
    by_cases hj : j = k
    · subst hj
      rw [step_evaluate hw, replace, List.getElem?_set_self hk]
      rcases evaluate_cases text w with hsame | ⟨x, r, v, w', hnew⟩
      · exact .inl (congrArg some hsame)
      · refine .inr ⟨text, x, r, v, w', rfl, hnew, ?_⟩
        rw [hnew.evaluate]
        rfl
    · -- Only the environment that is evaluated in can be another one afterwards.
      rcases step_evaluate_cases h j text with hsame | ⟨u, hle, hstep⟩
      · rw [hsame]
        exact .inl henv
      · rw [hstep, replace, List.getElem?_set_ne hj]
        exact .inl henv

/-- Behind the environments that were there, an event leaves at most the one that it adds. -/
theorem eq_added_of_step {event : Event} (henv : (h.step event).environments[k]? = some env')
    (hk : h.environments.length ≤ k) :
    k = h.environments.length ∧ h.added event = some env' := by
  -- Of a list with one entry at most there is only the entry at its start.
  have hadded {o : Option Environment} (ho : (h.environments ++ o.toList)[k]? = some env') :
      k = h.environments.length ∧ o = some env' := by
    rw [List.getElem?_append_right hk] at ho
    cases o with
    | none => simp at ho
    | some added =>
      rw [Option.toList_some, List.getElem?_singleton] at ho
      split at ho
      · next hzero => exact ⟨by omega, ho⟩
      · cases ho
  cases event with
  | copy j => exact hadded henv
  | empty => exact hadded (o := some .empty) henv
  | standard => exact hadded (o := some (.standard h.fresh)) henv
  | evaluate j text =>
    have hlength : (h.step (.evaluate j text)).environments.length = h.environments.length := by
      rcases step_evaluate_cases h j text with hsame | ⟨u, hle, hstep⟩
      · rw [hsame]
      · rw [hstep, replace, List.length_set]
    have hlt := (List.getElem?_eq_some_iff.mp henv).1
    omega

/-- Where an environment after an event comes from: it was there, it was there with one name
    less, or it was added. -/
theorem environment_of_step {event : Event} (henv : (h.step event).environments[k]? = some env') :
    h.environments[k]? = some env' ∨
    (∃ w text x r v w', h.workspace? k = some w ∧ event = .evaluate k text ∧
      Introduces text w x r v w' ∧ env' = w'.environment) ∨
    (k = h.environments.length ∧ h.added event = some env') := by
  by_cases hk : h.environments.length ≤ k
  · exact .inr (.inr (eq_added_of_step henv hk))
  -- Otherwise there was an environment of that number, and it is known what becomes of it.
  rcases exists_workspace? (List.getElem?_eq_getElem (Nat.lt_of_not_le hk)) with ⟨w, hw, -⟩
  rcases environment_step hw event with hsame | ⟨text, x, r, v, w', hevent, hnew, hafter⟩
  · rw [henv] at hsame
    exact .inl ((workspace?_eq_some_iff.mp hw).1.trans hsame.symm)
  · rw [henv] at hafter
    exact .inr (.inl ⟨w, text, x, r, v, w', hw, hevent, hnew, Option.some.inj hafter⟩)

/-- What is bound stays bound to the same value. -/
theorem get?_step {x : String} {v : Value} (henv : h.environments[k]? = some env)
    (hx : env.get? x = some v) (event : Event) :
    ∃ env', (h.step event).environments[k]? = some env' ∧ env'.get? x = some v := by
  rcases exists_workspace? henv with ⟨w, hw, rfl⟩
  rcases environment_step hw event with hsame | ⟨text, y, r, u, w', -, hnew, hafter⟩
  · exact ⟨_, hsame, hx⟩
  · have hne : x ≠ y := by
      rintro rfl
      rw [hnew.get?_eq_none] at hx
      cases hx
    refine ⟨_, hafter, ?_⟩
    rw [Environment.get?_of_define hnew.define, if_neg hne, hx]

/-- Callables that exist have identities that were handed out. -/
theorem Existing.identity_lt {events : List Event} {c : Callable} (hc : h.Existing events c) :
    c.identity < (h.after events).fresh := by
  induction hc with
  | bound hbinds =>
    rcases hbinds with ⟨env, henv, x, hx⟩
    exact h.identity_lt henv hx
  | @earlier events event c _ ih =>
    rw [after_concat]
    exact Nat.lt_of_lt_of_le ih (fresh_le_step _ event)
  | @yielded events event c hyields =>
    rw [after_concat]
    cases event with
    | evaluate k text =>
      rcases hyields with ⟨w, e, hw, hparse, hcomputes⟩
      have hle := hcomputes.ceiling_le
      rw [← workspaceAfter_evaluate hparse] at hle
      rw [step_evaluate hw]
      exact hle
    | copy k => exact hyields.elim
    | empty => exact hyields.elim
    | standard =>
      rcases hyields with ⟨x, hx⟩
      exact Environment.identity_lt_of_standard hx

/-- What is bound after an event was bound before, or came up in the event. -/
theorem binds_or_yields_of_step {event : Event} {c : Callable} (hc : (h.step event).Binds c) :
    h.Binds c ∨ h.Yields c event := by
  rcases hc with ⟨env', henv', y, hy⟩
  rcases List.mem_iff_getElem?.mp henv' with ⟨k, hk⟩
  rcases environment_of_step hk with hsame | ⟨w, text, x, r, v, w', hw, rfl, hnew, rfl⟩ |
    ⟨-, hadded⟩
  · exact .inl ⟨env', List.mem_of_getElem? hsame, y, hy⟩
  · rw [Environment.get?_of_define hnew.define] at hy
    by_cases hyx : y = x
    · -- The name is the new one, and its value is that of the right side.
      rw [if_pos hyx] at hy
      cases hy
      rcases hnew.eval with ⟨w₁, heval⟩
      have hfree := Environment.contains_eq_false_iff.mpr hnew.get?_eq_none
      exact .inr ⟨w, _, hw, hnew.parse, .assigned hfree (.result heval)⟩
    · rw [if_neg hyx] at hy
      have hold := List.mem_of_getElem? (workspace?_eq_some_iff.mp hw).1
      exact .inl ⟨w.environment, hold, y, hy⟩
  · cases event with
    | evaluate j text => cases hadded
    | copy j => exact .inl ⟨env', List.mem_of_getElem? hadded, y, hy⟩
    | empty =>
      cases hadded
      cases hy
    | standard =>
      cases hadded
      exact .inr ⟨y, hy⟩

/-- What is bound in any environment exists. -/
theorem existing_of_binds {events : List Event} {c : Callable} (hc : (h.after events).Binds c) :
    h.Existing events c := by
  induction events using List.reverseRecOn with
  | nil => exact .bound hc
  | append_singleton events event ih =>
    rw [after_concat] at hc
    rcases binds_or_yields_of_step hc with hbefore | hyields
    · exact .earlier (ih hbefore)
    · exact .yielded hyields

end Host

end ZPlane
