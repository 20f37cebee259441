import Mathlib.Logic.Relation
import ZPlane.Proofs.Evaluation.Histories

/-!
# Shared Callables

Two callables are equal if they have one body, not if they do the same. So the question is when
a body is shared. There is only one way: a text that is a name, or that assigns a name to
another one, recalls a callable. Everything else that has a callable as its value makes a new
one, different from all that have come up before it anywhere, also from those that were only
operands and that no name ever had.

Inside of one environment this says which names are equal. An assignment of a name to another
one makes an alias, and a chain of aliases leads from a name to the one that the callable was
bound to first. Names have equal callables exactly if such chains lead from both to one name. A
copy of an environment takes over the aliases of the original.

## Main definitions

* `Recalls`: The texts that recall what a name has.
* `Host.Aliased`: A name was assigned to another one in the history of an environment.
* `Environment.Distinct`, `Host.Distinct`: No two names have one callable.

## Theorems

* `recalls_iff`, `origin_of_evaluate`: Where the value of a text comes from.
* `Host.Aliased.get?_eq`: Aliases have one value.
* `Host.exists_common_of_identity_eq`: Chains of aliases lead from names with one callable to a
  common one.
* `Host.callables_shared_iff`: Which callables are equal.
-/

namespace ZPlane

/-- A text that is a name, or that assigns another name to it. -/
def Recalls (text x : String) : Prop :=
  parse text = .ok (.name x) ∨ ∃ y, parse text = .ok (.operation .assign (.name y) (.name x))

theorem Recalls.unique {text x y : String} (hx : Recalls text x) (hy : Recalls text y) :
    x = y := by
  rcases hx with hx | ⟨p, hx⟩ <;> rcases hy with hy | ⟨q, hy⟩ <;> rw [hx] at hy <;> cases hy <;> rfl

theorem Value.callable_beq_iff {c d : Callable} :
    (Value.callable c == .callable d) = true ↔ c.identity = d.identity := by
  change (c.identity == d.identity) = true ↔ _
  exact beq_iff_eq

section Origin

variable {text : String} {e : Expr} {w w' : Workspace} {v : Value}

/-- The value of a text is the value of its tree, or of the right side if that is an
    assignment. -/
theorem exists_eval_of_evaluate (h : evaluate text w = .ok v w') :
    ∃ e w₁, e.AssignFree ∧ e.eval w = .ok v w₁ ∧
      (parse text = .ok e ∨ ∃ x, parse text = .ok (.operation .assign (.name x) e)) := by
  rcases exists_eval_of_evaluate_ok h with ⟨e, hparse, heval⟩
  rcases assignFree_or_assign_of_parse hparse with hfree | ⟨x, r, rfl, hfree⟩
  · exact ⟨e, w', hfree, heval, .inl hparse⟩
  · rcases Expr.exists_of_eval_assign heval with ⟨_, w₁, -, -, hr, -⟩
    exact ⟨r, w₁, hfree, hr, .inr ⟨x, hparse⟩⟩

/-- A text recalls a name exactly if that name is what it evaluates. -/
theorem recalls_iff {y : String} (hfree : e.AssignFree)
    (hparse : parse text = .ok e ∨ ∃ x, parse text = .ok (.operation .assign (.name x) e)) :
    Recalls text y ↔ e = .name y := by
  refine ⟨fun hy => ?_, ?_⟩
  · rcases hparse with hparse | ⟨x, hparse⟩ <;> rcases hy with hy | ⟨z, hy⟩ <;>
      rw [hparse] at hy <;> cases hy
    · rfl
    · exact absurd rfl hfree.1
    · rfl
  · rintro rfl
    exact hparse

/-- The value of a text is what a name has that it recalls. If it recalls none and the value is
    a callable, that is new. -/
theorem origin_of_evaluate (h : evaluate text w = .ok v w') :
    (∃ x, Recalls text x ∧ w.environment.get? x = some v) ∨
      ((∀ x, ¬ Recalls text x) ∧ ∀ c, v = .callable c → w.fresh ≤ c.identity) := by
  rcases exists_eval_of_evaluate h with ⟨e, w₁, hfree, heval, hparse⟩
  rcases Expr.origin_of_eval hfree heval with ⟨y, hy, hget⟩ | ⟨hne, hnew⟩
  · exact .inl ⟨y, (recalls_iff hfree hparse).mpr hy, hget⟩
  · refine .inr ⟨fun y hy => ?_, fun c hc => (hnew c hc).1⟩
    exact hne y ((recalls_iff hfree hparse).mp hy)

end Origin

/-- A name that was assigned to another one has what that one has. -/
theorem get?_of_evaluate_alias {text x y : String} {w w' : Workspace} {v : Value}
    (hparse : parse text = .ok (.operation .assign (.name x) (.name y)))
    (h : evaluate text w = .ok v w') :
    w'.environment.get? x = some v ∧ w.environment.get? y = some v := by
  have hrecalls : Recalls text y := .inr ⟨x, hparse⟩
  refine ⟨?_, ?_⟩
  · rcases exists_eval_of_evaluate_ok h with ⟨e, hparse', heval⟩
    rw [hparse] at hparse'
    cases hparse'
    exact (Expr.get?_of_eval_assign heval).2
  · rcases origin_of_evaluate h with ⟨z, hz, hget⟩ | ⟨hnone, -⟩
    · exact hz.unique hrecalls ▸ hget
    · exact absurd hrecalls (hnone y)

/-- No two names have one callable. -/
def Environment.Distinct (env : Environment) : Prop :=
  ∀ x y c d, env.get? x = some (.callable c) → env.get? y = some (.callable d) →
    c.identity = d.identity → x = y

theorem Environment.distinct_standard (n : Nat) : (standard n).Distinct := by
  intro x y c d hx hy hcd
  rcases callable_of_standard hx with ⟨m, k, hm, rfl, rfl⟩
  rcases callable_of_standard hy with ⟨m', k', hm', rfl, rfl⟩
  have hk : k = k' := Nat.add_left_cancel hcd
  rw [hk, hm'] at hm
  cases hm
  rfl

namespace Host

/-- No two names have one callable in any of the environments. -/
def Distinct (h : Host) : Prop :=
  ∀ env ∈ h.environments, env.Distinct

/-- In the history of the environment of the given number, the first name was assigned to the
    second one. The history of a copy starts with that of the original. -/
inductive Aliased (h : Host) : List Event → Nat → String → String → Prop
  | assigned {events : List Event} {k : Nat} {w w' : Workspace} {text x y : String} {v : Value} :
      (h.after events).workspace? k = some w →
      parse text = .ok (.operation .assign (.name x) (.name y)) → evaluate text w = .ok v w' →
      Aliased h (events ++ [.evaluate k text]) k x y
  | kept {events : List Event} {event : Event} {k : Nat} {x y : String} :
      Aliased h events k x y → Aliased h (events ++ [event]) k x y
  | copied {events : List Event} {k : Nat} {x y : String} : Aliased h events k x y →
      Aliased h (events ++ [.copy k]) (h.after events).environments.length x y

/-- A chain of aliases from the first name to the second one. -/
def Leads (h : Host) (events : List Event) (k : Nat) : String → String → Prop :=
  Relation.ReflTransGen (h.Aliased events k)

variable {h : Host} {events : List Event} {event : Event} {k : Nat} {env : Environment}
  {w : Workspace} {x y : String}

theorem Leads.kept (hxy : h.Leads events k x y) : h.Leads (events ++ [event]) k x y :=
  Relation.ReflTransGen.mono (fun _ _ => Aliased.kept) _ _ hxy

theorem Leads.copied (hxy : h.Leads events k x y) :
    h.Leads (events ++ [.copy k]) (h.after events).environments.length x y :=
  Relation.ReflTransGen.mono (fun _ _ => Aliased.copied) _ _ hxy

/-- An alias has the value of the name that it was assigned to, then and ever after. -/
theorem Aliased.get?_eq (hxy : h.Aliased events k x y) :
    ∃ env v, (h.after events).environments[k]? = some env ∧ env.get? x = some v ∧
      env.get? y = some v := by
  induction hxy with
  | @assigned events k w w' text x y v hw hparse heval =>
    rcases get?_of_evaluate_alias hparse heval with ⟨hx, hy⟩
    have henv := (workspace?_eq_some_iff.mp hw).1
    -- The name itself has its value from now on, and the other one keeps it.
    rcases get?_step henv hy (.evaluate k text) with ⟨env', henv', hy'⟩
    rw [after_concat]
    refine ⟨env', v, henv', ?_, hy'⟩
    rw [step_evaluate hw, replace,
      List.getElem?_set_self (List.getElem?_eq_some_iff.mp henv).1, heval] at henv'
    cases henv'
    exact hx
  | @kept events event k x y _ ih =>
    rcases ih with ⟨env, v, henv, hx, hy⟩
    rcases get?_step henv hx event with ⟨env', henv', hx'⟩
    rcases get?_step henv hy event with ⟨env'', henv'', hy'⟩
    rw [henv'] at henv''
    cases henv''
    rw [after_concat]
    exact ⟨env', v, henv', hx', hy'⟩
  | @copied events k x y _ ih =>
    rcases ih with ⟨env, v, henv, hx, hy⟩
    refine ⟨env, v, ?_, hx, hy⟩
    rw [after_concat]
    change ((h.after events).environments ++ (h.after events).environments[k]?.toList)[_]? = _
    rw [henv, Option.toList_some, List.getElem?_concat_length]

/-- All names of a chain have one value. -/
theorem Leads.get?_eq {v : Value} (hxy : h.Leads events k x y)
    (henv : (h.after events).environments[k]? = some env) (hx : env.get? x = some v) :
    env.get? y = some v := by
  induction hxy with
  | refl => exact hx
  | tail _ halias ih =>
    rcases halias.get?_eq with ⟨env', u, henv', hfirst, hsecond⟩
    rw [henv] at henv'
    cases henv'
    rw [ih] at hfirst
    cases hfirst
    exact hsecond

/-- Where a text binds a name, chains of aliases connect it to the names that have the same
    callable already. -/
theorem exists_common_of_introduces {text : String} {r : Expr} {w' : Workspace} {c d : Callable}
    (hw : (h.after events).workspace? k = some w) (hnew : Introduces text w x r (.callable c) w')
    (hy : w.environment.get? y = some (.callable d)) (hcd : c.identity = d.identity)
    (hbefore : ∀ z, w.environment.get? z = some (.callable c) →
      ∃ s, h.Leads events k z s ∧ h.Leads events k y s) :
    ∃ s, h.Leads (events ++ [.evaluate k text]) k x s ∧
      h.Leads (events ++ [.evaluate k text]) k y s := by
  rcases hnew.eval with ⟨w₁, heval⟩
  rcases Expr.origin_of_eval hnew.assignFree heval with ⟨z, rfl, hz⟩ | ⟨-, hfresh⟩
  · rcases hbefore z hz with ⟨s, hzs, hys⟩
    exact ⟨s, .head (.assigned hw hnew.parse hnew.evaluate) hzs.kept, hys.kept⟩
  · -- A new callable has an identity that no name had before.
    have hlt : d.identity < w.fresh := w.identity_lt hy
    have hle : w.fresh ≤ c.identity := (hfresh c rfl).1
    omega

/-- Chains of aliases lead from names with one callable to a common one. -/
theorem exists_common_of_identity_eq (hdistinct : h.Distinct) {c d : Callable}
    (henv : (h.after events).environments[k]? = some env) (hx : env.get? x = some (.callable c))
    (hy : env.get? y = some (.callable d)) (hcd : c.identity = d.identity) :
    ∃ s, h.Leads events k x s ∧ h.Leads events k y s := by
  induction events using List.reverseRecOn generalizing k env x y c d with
  | nil =>
    cases hdistinct env (List.mem_of_getElem? henv) x y c d hx hy hcd
    exact ⟨x, .refl, .refl⟩
  | append_singleton events event ih =>
    rw [after_concat] at henv
    rcases environment_of_step henv with hsame | ⟨w, text, z, r, v, w', hw, rfl, hnew, rfl⟩ |
      ⟨rfl, hadded⟩
    · rcases ih hsame hx hy hcd with ⟨s, hxs, hys⟩
      exact ⟨s, hxs.kept, hys.kept⟩
    · have hold := (workspace?_eq_some_iff.mp hw).1
      rw [Environment.get?_of_define hnew.define] at hx hy
      by_cases hxz : x = z <;> by_cases hyz : y = z
      · subst hxz
        subst hyz
        exact ⟨y, .refl, .refl⟩
      · subst hxz
        rw [if_pos rfl] at hx
        rw [if_neg hyz] at hy
        cases hx
        exact exists_common_of_introduces hw hnew hy hcd fun p hp => ih hold hp hy hcd
      · subst hyz
        rw [if_neg hxz] at hx
        rw [if_pos rfl] at hy
        cases hy
        rcases exists_common_of_introduces hw hnew hx hcd.symm
          fun p hp => ih hold hp hx hcd.symm with ⟨s, hys, hxs⟩
        exact ⟨s, hxs, hys⟩
      · rw [if_neg hxz] at hx
        rw [if_neg hyz] at hy
        rcases ih hold hx hy hcd with ⟨s, hxs, hys⟩
        exact ⟨s, hxs.kept, hys.kept⟩
    · cases event with
      | evaluate j text => cases hadded
      | copy j =>
        rcases ih hadded hx hy hcd with ⟨s, hxs, hys⟩
        exact ⟨s, hxs.copied, hys.copied⟩
      | empty =>
        cases hadded
        cases hx
      | standard =>
        cases hadded
        cases Environment.distinct_standard _ x y c d hx hy hcd
        exact ⟨x, .refl, .refl⟩

/-- A callable that comes from a text is equal to one that existed before exactly if the text
    recalls a name, and then it is what that name has. Every other one is new. And if the names
    of every environment were distinct at the start, two names of an environment have equal
    callables exactly if chains of aliases lead from both to one name. -/
theorem callables_shared_iff (events : List Event) (hw : (h.after events).workspace? k = some w) :
    (∀ text c w', evaluate text w = .ok (.callable c) w' →
      ((∃ d, h.Existing events d ∧ (Value.callable c == .callable d) = true) ↔
        ∃ x, Recalls text x) ∧
      (∀ x, Recalls text x → w.environment.get? x = some (.callable c)) ∧
      ((∀ x, ¬ Recalls text x) →
        ∀ d, h.Existing events d → (Value.callable c == .callable d) = false)) ∧
    (h.Distinct → ∀ x y c d, w.environment.get? x = some (.callable c) →
      w.environment.get? y = some (.callable d) →
      ((Value.callable c == .callable d) = true ↔
        ∃ s, h.Leads events k x s ∧ h.Leads events k y s)) := by
  rcases workspace?_eq_some_iff.mp hw with ⟨henv, hfresh⟩
  refine ⟨fun text c w' heval => ?_, fun hdistinct x y c d hx hy => ?_⟩
  · rcases origin_of_evaluate heval with ⟨x, hx, hget⟩ | ⟨hnone, hnew⟩
    · -- What the name has is bound, so it exists.
      have hexists : h.Existing events c :=
        existing_of_binds ⟨w.environment, List.mem_of_getElem? henv, x, hget⟩
      refine ⟨⟨fun _ => ⟨x, hx⟩, fun _ => ⟨c, hexists, Value.callable_beq_iff.mpr rfl⟩⟩,
        fun y hy => hx.unique hy ▸ hget, fun hnone => absurd hx (hnone x)⟩
    · have hne (d : Callable) (hd : h.Existing events d) : c.identity ≠ d.identity := by
        have hlt := hd.identity_lt
        have hle : w.fresh ≤ c.identity := hnew c rfl
        omega
      refine ⟨⟨?_, ?_⟩, fun x hx => absurd hx (hnone x), fun _ d hd => ?_⟩
      · rintro ⟨d, hd, hcd⟩
        exact absurd (Value.callable_beq_iff.mp hcd) (hne d hd)
      · rintro ⟨x, hx⟩
        exact absurd hx (hnone x)
      · rw [← Bool.not_eq_true, Value.callable_beq_iff]
        exact hne d hd
  · rw [Value.callable_beq_iff]
    refine ⟨exists_common_of_identity_eq hdistinct henv hx hy, ?_⟩
    rintro ⟨s, hxs, hys⟩
    have hc := hxs.get?_eq henv hx
    rw [hys.get?_eq henv hy] at hc
    cases hc
    rfl

/-- In a copy of an environment `g` is assigned to `f`. The two are equal, and another sum of
    the same functions is equal to neither. -/
theorem callables_shared_iff_copy :
    let h : Host := ⟨[.standard 0], Environment.functions.length, by
      intro env henv
      cases List.mem_singleton.mp henv
      exact Environment.identity_lt_of_standard⟩
    let events : List Event := [.evaluate 0 "f = sin + cos", .copy 0, .evaluate 1 "g = f"]
    h.Distinct ∧ ∃ w c c' w', (h.after events).workspace? 1 = some w ∧
      w.environment.get? "g" = some (.callable c) ∧
      evaluate "sin + cos" w = .ok (.callable c') w' ∧
      (∃ s, h.Leads events 1 "f" s ∧ h.Leads events 1 "g" s) ∧
      ∀ d, h.Existing events d → (Value.callable c' == .callable d) = false := by
  intro h events
  have hsum : parse "f = sin + cos" = .ok (.operation .assign (.name "f")
      (.operation (.arith .add) (.name "sin") (.name "cos"))) := by cbv
  have halias : parse "g = f" = .ok (.operation .assign (.name "g") (.name "f")) := by cbv
  have hnew : parse "sin + cos" = .ok (.operation (.arith .add) (.name "sin") (.name "cos")) := by
    cbv
  have hdistinct : h.Distinct := by
    intro env henv
    cases List.mem_singleton.mp henv
    exact Environment.distinct_standard 0
  let c : Callable := ⟨5, .pointwise .add (.total "sin" .sin) (.total "cos" .cos)⟩
  -- The workspace after the first text, which is also that of the copy, and after the last one.
  let w₁ : Workspace := workspaceAfter ((Expr.operation .assign (.name "f")
    (.operation (.arith .add) (.name "sin") (.name "cos"))).eval .standard)
  let w₂ : Workspace :=
    workspaceAfter ((Expr.operation .assign (.name "g") (.name "f")).eval w₁)
  have hfirst : h.step (.evaluate 0 "f = sin + cos") = h.replace 0 w₁ (by decide) := by
    have hw : h.workspace? 0 = some .standard := workspace?_eq_some_iff.mpr ⟨rfl, rfl⟩
    simp only [step_evaluate hw, workspaceAfter_evaluate hsum, w₁]
  let h₂ : Host := (h.replace 0 w₁ (by decide)).step (.copy 0)
  have hthird : h₂.step (.evaluate 1 "g = f") = h₂.replace 1 w₂ (by decide) := by
    have hw : h₂.workspace? 1 = some w₁ := workspace?_eq_some_iff.mpr ⟨rfl, rfl⟩
    simp only [step_evaluate hw, workspaceAfter_evaluate halias, w₂]
  have hafter : h.after events = h₂.replace 1 w₂ (by decide) := by
    change ((h.step (.evaluate 0 "f = sin + cos")).step (.copy 0)).step (.evaluate 1 "g = f") = _
    rw [hfirst]
    exact hthird
  have hw : (h.after events).workspace? 1 = some w₂ := by
    rw [hafter]
    exact workspace?_eq_some_iff.mpr ⟨rfl, rfl⟩
  have hmain := callables_shared_iff events hw
  have heval : evaluate "sin + cos" w₂ = .ok (.callable { c with identity := 6 }) w₂.issue :=
    evaluate_of_eval_ok hnew rfl
  refine ⟨hdistinct, w₂, c, _, _, hw, rfl, heval, ?_, ?_⟩
  · exact (hmain.2 hdistinct "f" "g" c c rfl rfl).mp (Value.callable_beq_iff.mpr rfl)
  · refine (hmain.1 _ _ _ heval).2.2 ?_
    rintro x (hx | ⟨y, hx⟩) <;> rw [hnew] at hx <;> cases hx

end Host

end ZPlane
