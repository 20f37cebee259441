import ZPlane.Proofs.Evaluation.Alike

/-!
# Where Callables Come From

A callable that evaluation gives was looked up, or it was built on the way. What is looked
up keeps its identity. What is built takes the first unused identity, and a workspace has no
callable under an identity that is still to be handed out, so it is equal to nothing that was
there before.

Workspaces are alike when their environments have the same meanings, and the same pairs of
names have equal values in both. Nothing that is evaluated in both can tell them apart, not
even by a comparison of callables.

## Main definitions

* `Introduces`: A text that binds a free name.
* `Workspace.Alike`: Workspaces with the same meanings and the same equalities.

## Theorems

* `fresh_le_of_evaluate`: Identities are handed out in order.
* `Expr.origin_of_eval`: What evaluation gives is looked up or new.
* `evaluate_cases`: Evaluation of a text binds nothing, or one name that was free.
* `Workspace.Alike.evaluate`: Alike workspaces stay alike.
-/

namespace ZPlane

namespace Expr

variable {w w' : Workspace}

/-- A callable that an operation gives is new: its identity was handed out on the way. -/
theorem identity_of_eval {op : Operator} {l r : Expr} {c : Callable} (hop : op ≠ .assign)
    (h : (operation op l r).eval w = .ok (.callable c) w') :
    w.fresh ≤ c.identity ∧ c.identity < w'.fresh := by
  rcases exists_eval_operation hop l r with ⟨g, heval, hissues⟩
  rw [heval] at h
  rcases Eval.ok_and_ok_of_bind h with ⟨u, w₁, hu, h₁⟩
  rcases Eval.ok_and_ok_of_bind h₁ with ⟨v, w₂, hv, h₂⟩
  -- The operands take what identities they need, and the operation takes the next one.
  have hle₁ := fresh_le_of_eval l w
  have hle₂ := fresh_le_of_eval r w₁
  rw [hu] at hle₁
  rw [hv] at hle₂
  simp only [workspaceAfter] at hle₁ hle₂
  rcases (h₂ ▸ hissues u v w₂).identity with ⟨hc, hw'⟩
  omega

/-- What evaluation gives is looked up, or it is new. -/
theorem origin_of_eval {e : Expr} {v : Value} (he : e.AssignFree) (h : e.eval w = .ok v w') :
    (∃ x, e = .name x ∧ w.environment.get? x = some v) ∨
      ((∀ x, e ≠ .name x) ∧
        ∀ c, v = .callable c → w.fresh ≤ c.identity ∧ c.identity < w'.fresh) := by
  cases e with
  | literal z =>
    refine .inr ⟨by simp, ?_⟩
    rintro c rfl
    cases h
  | name x =>
    refine .inl ⟨x, rfl, ?_⟩
    change Eval.lookup x w = _ at h
    rw [Eval.lookup_eq] at h
    cases hx : w.environment.get? x with
    | none =>
      rw [hx] at h
      cases h
    | some u =>
      rw [hx] at h
      cases h
      rfl
  | operation op l r =>
    refine .inr ⟨by simp, ?_⟩
    rintro c rfl
    exact identity_of_eval he.1 h

end Expr

/-- A text that binds a free name to the value of an expression. -/
structure Introduces (text : String) (w : Workspace) (x : String) (r : Expr) (v : Value)
    (w' : Workspace) : Prop where
  parse : parse text = .ok (.operation .assign (.name x) r)
  assignFree : r.AssignFree
  eval : ∃ w₁, r.eval w = .ok v w₁
  evaluate : evaluate text w = .ok v w'
  define : w.environment.define x v = .ok w'.environment

section Texts

variable {text : String} {w : Workspace}

theorem workspaceAfter_evaluate {e : Expr} (h : parse text = .ok e) :
    workspaceAfter (evaluate text w) = workspaceAfter (e.eval w) := by
  rcases heval : e.eval w with ⟨v, w'⟩ | ⟨err, w'⟩
  · rw [evaluate_of_eval_ok h heval]
    rfl
  · rw [evaluate_of_eval_error h heval]
    rfl

/-- Evaluating a text takes no identity back. -/
theorem fresh_le_of_evaluate (text : String) (w : Workspace) :
    w.fresh ≤ (workspaceAfter (evaluate text w)).fresh := by
  rcases hparse : parse text with err | e
  · rw [evaluate_of_parse_error hparse]
    exact Nat.le_refl _
  · rw [workspaceAfter_evaluate hparse]
    exact Expr.fresh_le_of_eval e w

/-- Evaluation of a text binds nothing, or it binds one name that was free. -/
theorem evaluate_cases (text : String) (w : Workspace) :
    (workspaceAfter (evaluate text w)).environment = w.environment ∨
      ∃ x r v w', Introduces text w x r v w' := by
  rcases heval : evaluate text w with ⟨v, w'⟩ | ⟨err, w'⟩
  · rcases exists_eval_of_evaluate_ok heval with ⟨e, hparse, he⟩
    rcases assignFree_or_assign_of_parse hparse with hfree | ⟨x, r, rfl, hfree⟩
    · exact .inl (Expr.environment_eq_of_ok hfree he)
    · rcases Expr.exists_of_eval_assign he with ⟨y, w₁, hname, -, hr, hdefine⟩
      cases hname
      -- The right side binds nothing, so the name is defined in the environment as it was.
      have hdefine' := (Workspace.define_eq_ok_iff.mp hdefine).1
      rw [Expr.environment_eq_of_ok hfree hr] at hdefine'
      exact .inr ⟨x, r, v, w', hparse, hfree, ⟨w₁, hr⟩, heval, hdefine'⟩
  · exact .inl (environment_eq_of_evaluate_error heval)

theorem Introduces.get?_eq_none {x : String} {r : Expr} {v : Value} {w' : Workspace}
    (h : Introduces text w x r v w') : w.environment.get? x = none :=
  (Environment.define_eq_ok_iff.mp h.define).1

end Texts

/-- How a value compares to what a name has is decided by their meanings, where the value is
    new to the name. -/
theorem Value.beq_of_new {v v' : Value} {o o' : Option Value} (hv : v.meaning = v'.meaning)
    (ho : o.map Value.meaning = o'.map Value.meaning)
    (hnew : ∀ c d, v = .callable c → o = some (.callable d) → d.identity < c.identity)
    (hnew' : ∀ c d, v' = .callable c → o' = some (.callable d) → d.identity < c.identity) :
    (some v == o) = (some v' == o') ∧ (o == some v) = (o' == some v') := by
  rcases o with _ | u
  · rw [Option.map_none, eq_comm, Option.map_eq_none_iff] at ho
    subst ho
    exact ⟨rfl, rfl⟩
  rcases o' with _ | u'
  · cases ho
  have hu : u.meaning = u'.meaning := Option.some.inj ho
  rcases meaning_eq_cases hv with ⟨z, rfl, rfl⟩ | ⟨c, c', rfl, rfl, -⟩ <;>
    rcases meaning_eq_cases hu with ⟨y, rfl, rfl⟩ | ⟨d, d', rfl, rfl, -⟩
  · exact ⟨rfl, rfl⟩
  · exact ⟨rfl, rfl⟩
  · exact ⟨rfl, rfl⟩
  -- Of two callables the new one has the larger identity, so they are not equal.
  · have hlt := hnew c d rfl rfl
    have hlt' := hnew' c' d' rfl rfl
    change (c.identity == d.identity) = (c'.identity == d'.identity) ∧
      (d.identity == c.identity) = (d'.identity == c'.identity)
    rw [beq_eq_false_iff_ne.mpr (Nat.ne_of_gt hlt), beq_eq_false_iff_ne.mpr (Nat.ne_of_gt hlt'),
      beq_eq_false_iff_ne.mpr (Nat.ne_of_lt hlt), beq_eq_false_iff_ne.mpr (Nat.ne_of_lt hlt')]
    exact ⟨rfl, rfl⟩

namespace Workspace

/-- Workspaces in which the same names mean the same, and the same pairs of names have equal
    values. -/
structure Alike (w u : Workspace) : Prop where
  meanings : w.environment.meanings = u.environment.meanings
  equal : ∀ x y, (w.environment.get? x == w.environment.get? y) =
    (u.environment.get? x == u.environment.get? y)

theorem Alike.refl (w : Workspace) : w.Alike w :=
  ⟨rfl, fun _ _ => rfl⟩

namespace Alike

variable {w w' u : Workspace} {E F : Environment} {v v' : Value} {x : String}

theorem of_environment_eq (h : w.Alike u) (henv : w'.environment = w.environment) :
    w'.Alike u :=
  ⟨henv ▸ h.meanings, henv ▸ h.equal⟩

/-- A name that is bound to what another name has in both workspaces. -/
theorem equal_of_alias (h : w.Alike u) (hE : w.environment.define x v = .ok E)
    (hF : u.environment.define x v' = .ok F) {z : String} (hv : w.environment.get? z = some v)
    (hv' : u.environment.get? z = some v') (p q : String) :
    (E.get? p == E.get? q) = (F.get? p == F.get? q) := by
  simp only [Environment.get?_of_define hE, Environment.get?_of_define hF, ← hv, ← hv']
  -- Wherever `x` is asked for, `z` answers.
  split <;> split <;> exact h.equal _ _

/-- A name that is bound to something new in both workspaces. -/
theorem equal_of_new (h : w.Alike u) (hE : w.environment.define x v = .ok E)
    (hF : u.environment.define x v' = .ok F) (hv : v.meaning = v'.meaning)
    (hnew : ∀ c, v = .callable c → w.fresh ≤ c.identity)
    (hnew' : ∀ c, v' = .callable c → u.fresh ≤ c.identity) (p q : String) :
    (E.get? p == E.get? q) = (F.get? p == F.get? q) := by
  have hcompare (y : String) :=
    Value.beq_of_new hv (Environment.meaning_get? h.meanings y)
      (fun c d hc hd => Nat.lt_of_lt_of_le (w.identity_lt hd) (hnew c hc))
      (fun c d hc hd => Nat.lt_of_lt_of_le (u.identity_lt hd) (hnew' c hc))
  simp only [Environment.get?_of_define hE, Environment.get?_of_define hF]
  split <;> split
  · -- The value is compared to itself.
    rcases Value.meaning_eq_cases hv with ⟨z, rfl, rfl⟩ | ⟨c, c', rfl, rfl, -⟩
    · rfl
    · change (c.identity == c.identity) = (c'.identity == c'.identity)
      rw [beq_self_eq_true, beq_self_eq_true]
  · exact (hcompare q).1
  · exact (hcompare p).2
  · exact h.equal p q

/-- A name that a text binds in both workspaces. -/
theorem equal_of_introduces (h : w.Alike u) {text y : String} {r s : Expr} {u' : Workspace}
    (hw : Introduces text w x r v w') (hu : Introduces text u y s v' u') (p q : String) :
    (w'.environment.get? p == w'.environment.get? q) =
      (u'.environment.get? p == u'.environment.get? q) := by
  have hparse := hu.parse
  rw [hw.parse] at hparse
  cases hparse
  rcases hw.eval with ⟨w₁, hr⟩
  rcases hu.eval with ⟨u₁, hs⟩
  have hv : v.meaning = v'.meaning := by
    have hsame := Expr.eval_sameMeaning hw.assignFree h.meanings
    rw [hr, hs] at hsame
    cases hsame
    assumption
  rcases Expr.origin_of_eval hw.assignFree hr with ⟨z, rfl, hz⟩ | ⟨hne, hnew⟩ <;>
    rcases Expr.origin_of_eval hu.assignFree hs with ⟨z', hz', hz''⟩ | ⟨hne', hnew'⟩
  · cases hz'
    exact h.equal_of_alias hw.define hu.define hz hz'' p q
  · exact absurd rfl (hne' z)
  · exact absurd hz' (hne z')
  · exact h.equal_of_new hw.define hu.define hv (fun c hc => (hnew c hc).1)
      (fun c hc => (hnew' c hc).1) p q

/-- Alike workspaces stay alike. -/
theorem evaluate (h : w.Alike u) (text : String) :
    (workspaceAfter (evaluate text w)).Alike (workspaceAfter (evaluate text u)) := by
  have hmeanings := (evaluate_sameMeaning h.meanings text).meanings_eq
  refine ⟨hmeanings, fun p q => ?_⟩
  rcases evaluate_cases text w with hw | ⟨x, r, v, w', hw⟩ <;>
    rcases evaluate_cases text u with hu | ⟨y, s, v', u', hu⟩
  · rw [hw, hu]
    exact h.equal p q
  · -- One environment cannot grow without the other.
    rw [hw, hu.evaluate, workspaceAfter, Environment.meanings_of_define hu.define,
      h.meanings] at hmeanings
    exact absurd (congrArg List.length hmeanings) (by simp)
  · rw [hw.evaluate, hu, workspaceAfter, Environment.meanings_of_define hw.define,
      h.meanings] at hmeanings
    exact absurd (congrArg List.length hmeanings) (by simp)
  · rw [hw.evaluate, hu.evaluate]
    exact h.equal_of_introduces hw hu p q

end Alike

end Workspace

end ZPlane
