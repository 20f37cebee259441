import ZPlane.Proofs.Evaluation.Identity

/-!
# Lines That Do Not Depend on Each Other

Evaluation looks at the names of an expression and at no others. This is so for every tree,
also for one with assignments deep inside: the names that are assigned are names of the tree,
and what they are bound to depends on the other names of the tree alone. So two environments
that agree on those names give the same outcome, and agree on them ever after.

A callable keeps the values that its parts had when it was built. What is bound later does
not reach it, and so its meaning does not depend on when a name was bound.

Two texts are independent when neither assigns a name of the other. The order in which they
are evaluated then makes no difference, also when one of them fails: each has the outcome that
it has on its own, and the names at the end have the same meanings.

## Main definitions

* `Environment.AgreeOn`: Environments that give some names the same meanings.
* `Agrees`: Results with one outcome, in environments that still agree.
* `outcome`: What a result says, without the workspace and without identities.
* `Expr.binding?`: The binding that an expression adds, told from its outcome.

## Theorems

* `Expr.eval_agrees`: Evaluation looks at the names of an expression only.
* `meanings_evaluate`: What a text adds to an environment.
* `evaluate_comm`: Independent texts can be exchanged.
-/

namespace ZPlane

namespace Environment

/-- The environments give the listed names the same meanings, or bind neither. -/
def AgreeOn (names : List String) (E F : Environment) : Prop :=
  ∀ x ∈ names, (E.get? x).map Value.meaning = (F.get? x).map Value.meaning

namespace AgreeOn

variable {names : List String} {E F E' F' : Environment}

theorem contains_eq (h : AgreeOn names E F) {x : String} (hx : x ∈ names) :
    E.contains x = F.contains x := by
  have hsome := congrArg Option.isSome (h x hx)
  simpa only [contains, Option.isSome_map] using hsome

/-- A name that is bound to values with one meaning in both environments. -/
theorem define (h : AgreeOn names E F) {x : String} {v u : Value} (hv : v.meaning = u.meaning)
    (hE : E.define x v = .ok E') (hF : F.define x u = .ok F') : AgreeOn names E' F' := by
  intro y hy
  rw [get?_of_define hE, get?_of_define hF]
  by_cases hyx : y = x
  · simp [hyx, hv]
  · simpa [hyx] using h y hy

end AgreeOn

end Environment

open Environment

/-- Results with one outcome, in environments that agree on the listed names. -/
inductive Agrees (names : List String) : EStateM.Result RuntimeError Workspace Value →
    EStateM.Result RuntimeError Workspace Value → Prop
  | ok {v u : Value} {w w' : Workspace} : v.meaning = u.meaning →
      AgreeOn names w.environment w'.environment → Agrees names (.ok v w) (.ok u w')
  | error {e : RuntimeError} {w w' : Workspace} :
      AgreeOn names w.environment w'.environment → Agrees names (.error e w) (.error e w')

namespace Agrees

variable {names : List String} {w u : Workspace}

/-- Computations that agree go on to agree. -/
theorem bind {x y : Eval Value} {f g : Value → Eval Value} (hxy : Agrees names (x w) (y u))
    (h : ∀ v v' w' u', v.meaning = v'.meaning → AgreeOn names w'.environment u'.environment →
      Agrees names (f v w') (g v' u')) :
    Agrees names ((x >>= f) w) ((y >>= g) u) := by
  change Agrees names (EStateM.bind x f w) (EStateM.bind y g u)
  unfold EStateM.bind
  generalize x w = left at hxy
  generalize y u = right at hxy
  cases hxy with
  | ok hv henv => exact h _ _ _ _ hv henv
  | error henv => exact .error henv

/-- A number that is known already, or the reason why there is none. -/
theorem number (h : AgreeOn names w.environment u.environment)
    (r : Except RuntimeError Complex) :
    Agrees names ((Value.number <$> Eval.ofExcept r) w) ((Value.number <$> Eval.ofExcept r) u) := by
  cases r with
  | error e => exact .error h
  | ok z => exact .ok rfl h

/-- Two new callables for one mapping. -/
theorem introduce (h : AgreeOn names w.environment u.environment) (m : Mapping) :
    Agrees names (Eval.introduce m w) (Eval.introduce m u) :=
  .ok rfl h

theorem lookup (h : AgreeOn names w.environment u.environment) {x : String} (hx : x ∈ names) :
    Agrees names (Eval.lookup x w) (Eval.lookup x u) := by
  have hget := h x hx
  rw [Eval.lookup_eq, Eval.lookup_eq]
  cases hw : w.environment.get? x <;> cases hu : u.environment.get? x <;>
    simp only [hw, hu, Option.map_none, Option.map_some, reduceCtorEq, Option.some.injEq] at hget
  · exact .error h
  · exact .ok hget h

theorem arith (h : AgreeOn names w.environment u.environment) (a : Arith) {l l' r r' : Value}
    (hl : l.meaning = l'.meaning) (hr : r.meaning = r'.meaning) :
    Agrees names (l.arith a r w) (l'.arith a r' u) := by
  rcases Value.meaning_eq_cases hl with ⟨z, rfl, rfl⟩ | ⟨c, c', rfl, rfl, hc⟩ <;>
    rcases Value.meaning_eq_cases hr with ⟨y, rfl, rfl⟩ | ⟨d, d', rfl, rfl, hd⟩
  · exact number h _
  · simp only [Value.arith, Value.mapping, hd]
    exact introduce h _
  · simp only [Value.arith, Value.mapping, hc]
    exact introduce h _
  · simp only [Value.arith, Value.mapping, hc, hd]
    exact introduce h _

theorem invoke (h : AgreeOn names w.environment u.environment) {c c' : Callable}
    (hc : c.mapping = c'.mapping) {v v' : Value} (hv : v.meaning = v'.meaning) :
    Agrees names (c.invoke v w) (c'.invoke v' u) := by
  rcases Value.meaning_eq_cases hv with ⟨z, rfl, rfl⟩ | ⟨d, d', rfl, rfl, hd⟩
  · simp only [Callable.invoke, hc]
    exact number h _
  · simp only [Callable.invoke, hc, hd]
    exact introduce h _

/-- A name is bound in both environments, or it was bound in both already. -/
theorem define (h : AgreeOn names w.environment u.environment) {x : String} (hx : x ∈ names)
    {v v' : Value} (hv : v.meaning = v'.meaning) :
    Agrees names ((Eval.define x v >>= fun _ => pure v) w)
      ((Eval.define x v' >>= fun _ => pure v') u) := by
  rw [Eval.define_eq, Eval.define_eq]
  -- The name is bound in both or in none, so the two mixed cases are impossible.
  have hcontains := h.contains_eq hx
  rcases w.define_cases x v with ⟨hw, hdefine⟩ | ⟨hw, w', hdefine⟩ <;>
    rcases u.define_cases x v' with ⟨hu, hdefine'⟩ | ⟨hu, u', hdefine'⟩ <;>
    rw [hw, hu] at hcontains <;> rw [hdefine, hdefine']
  · exact .error h
  · cases hcontains
  · cases hcontains
  · have hleft := (Workspace.define_eq_ok_iff.mp hdefine).1
    have hright := (Workspace.define_eq_ok_iff.mp hdefine').1
    exact .ok hv (h.define hv hleft hright)

end Agrees

/-- Evaluation looks at the names of an expression and at no others, and goes on to agree
    on them. -/
theorem Expr.eval_agrees {names : List String} {e : Expr} (he : ∀ x ∈ e.names, x ∈ names)
    {w u : Workspace} (h : AgreeOn names w.environment u.environment) :
    Agrees names (e.eval w) (e.eval u) := by
  induction e generalizing w u with
  | literal z => exact .ok rfl h
  | name x => exact .lookup h (he x (by simp))
  | operation op l r ihl ihr =>
    simp only [mem_names_operation] at he
    have hl := @ihl fun x hx => he x (.inl hx)
    have hr := @ihr fun x hx => he x (.inr hx)
    cases op with
    | arith a =>
      refine (hl h).bind fun v v' w₁ u₁ hv h₁ => ?_
      refine (hr h₁).bind fun y y' w₂ u₂ hy h₂ => ?_
      exact .arith h₂ a hv hy
    | call =>
      refine (hl h).bind fun v v' w₁ u₁ hv h₁ => ?_
      refine (hr h₁).bind fun y y' w₂ u₂ hy h₂ => ?_
      rcases Value.meaning_eq_cases hv with ⟨z, rfl, rfl⟩ | ⟨c, c', rfl, rfl, hc⟩
      · exact .error h₂
      · exact .invoke h₂ hc hy
    | assign =>
      cases l with
      | literal z => exact .error h
      | operation op' l' r' => exact .error h
      | name x =>
        have hx : x ∈ names := he x (.inl (by simp))
        have hcontains := h.contains_eq hx
        cases hbound : w.environment.contains x with
        | true =>
          rw [eval_assign_of_contains hbound, eval_assign_of_contains (hcontains ▸ hbound)]
          exact .error h
        | false =>
          rw [eval_assign_of_free hbound, eval_assign_of_free (hcontains ▸ hbound)]
          -- The name is looked at again when the value is there, which may have bound it.
          exact (hr h).bind fun v v' w₁ u₁ hv h₁ => .define h₁ hx hv

/-- What a result says, without the workspace and without identities. -/
def outcome {ε : Type} : EStateM.Result ε Workspace Value → Except ε Meaning
  | .ok v _ => .ok v.meaning
  | .error e _ => .error e

/-- The binding that an expression adds, told from its outcome. -/
def Expr.binding? {ε : Type} : Expr → Except ε Meaning → Option (String × Meaning)
  | .operation .assign (.name x) _, .ok m => some (x, m)
  | _, _ => none

section Texts

variable {text : String} {e : Expr} {w u : Workspace}

/-- Environments that agree on the names of a text give it one outcome. -/
theorem outcome_evaluate_eq (hparse : parse text = .ok e)
    (h : AgreeOn e.names w.environment u.environment) :
    outcome (evaluate text w) = outcome (evaluate text u) := by
  have hagrees := Expr.eval_agrees (fun _ hx => hx) h
  unfold evaluate
  simp only [hparse]
  generalize e.eval w = left at hagrees
  generalize e.eval u = right at hagrees
  cases hagrees with
  | ok hv _ => exact congrArg Except.ok hv
  | error _ => rfl

theorem binding?_of_assignFree {ε : Type} (he : e.AssignFree) (o : Except ε Meaning) :
    e.binding? o = none := by
  cases e with
  | literal z => rfl
  | name x => rfl
  | operation op l r =>
    cases op with
    | arith a => rfl
    | assign => exact absurd rfl he.1
    | call => rfl

/-- Only an assignment adds a binding, and it is one of its own name. -/
theorem exists_assign_of_binding? {ε : Type} {o : Except ε Meaning} {b : String × Meaning}
    (h : e.binding? o = some b) : ∃ r, e = .operation .assign (.name b.1) r := by
  unfold Expr.binding? at h
  split at h
  · cases h
    exact ⟨_, rfl⟩
  · cases h

/-- A text adds its binding to the environment, and nothing else happens there. -/
theorem meanings_evaluate (hparse : parse text = .ok e) (w : Workspace) :
    (workspaceAfter (evaluate text w)).environment.meanings =
      (e.binding? (outcome (evaluate text w))).toList ++ w.environment.meanings := by
  rcases assignFree_or_assign_of_parse hparse with hfree | ⟨x, r, rfl, hfree⟩
  · rw [binding?_of_assignFree hfree]
    rcases environment_eq_of_evaluate (w := w) hparse hfree with ⟨hok, herror⟩
    rcases heval : evaluate text w with ⟨v, w'⟩ | ⟨err, w'⟩
    · exact congrArg Environment.meanings (hok v w' heval)
    · exact congrArg Environment.meanings (herror err w' heval)
  rcases evaluate_assign hfree hparse w with ⟨hbound, hnew⟩
  by_cases hx : w.environment.contains x = true
  · rw [hbound hx]
    rfl
  rcases hnew (by simpa using hx) with ⟨hfails, hvalue⟩
  rcases heval : r.eval w with ⟨v, w'⟩ | ⟨err, w'⟩
  · rcases hvalue v w' heval with ⟨w'', hevaluate, hdefine, -⟩
    rw [hevaluate]
    exact meanings_of_define hdefine
  · rw [hfails err w' heval]
    exact congrArg Environment.meanings (Expr.environment_eq_of_error hfree heval)

/-- A text leaves the meanings of all names that it does not assign. -/
theorem agreeOn_evaluate {names : List String} (hparse : parse text = .ok e)
    (hnames : ∀ x r, e = .operation .assign (.name x) r → x ∉ names) (w : Workspace) :
    AgreeOn names (workspaceAfter (evaluate text w)).environment w.environment := by
  intro y hy
  rw [← lookup_meanings, ← lookup_meanings, meanings_evaluate hparse]
  cases hbinding : e.binding? (outcome (evaluate text w)) with
  | none => rfl
  | some b =>
    rcases b with ⟨x, m⟩
    rcases exists_assign_of_binding? hbinding with ⟨r, rfl⟩
    have hne : y ≠ x := fun h => hnames x r rfl (h ▸ hy)
    simp [List.lookup_cons, beq_eq_false_iff_ne.mpr hne]

end Texts

/-- Bindings of different names can be exchanged. -/
theorem lookup_append_comm {α : Type} {left right : Option (String × α)}
    (h : ∀ b ∈ left, ∀ c ∈ right, b.1 ≠ c.1) (rest : List (String × α)) (x : String) :
    (left.toList ++ (right.toList ++ rest)).lookup x =
      (right.toList ++ (left.toList ++ rest)).lookup x := by
  rcases left with - | ⟨y, l⟩
  · rfl
  rcases right with - | ⟨z, r⟩
  · rfl
  have hne : y ≠ z := h _ rfl _ rfl
  simp only [Option.toList_some, List.singleton_append, List.lookup_cons]
  by_cases hx : x = y
  · rw [hx, beq_self_eq_true, beq_eq_false_iff_ne.mpr hne]
  · rw [beq_eq_false_iff_ne.mpr hx]

/-- Texts of which neither assigns a name of the other can be evaluated in either order. Each
    of them has the outcome that it has on its own, a failure included. The bindings at the
    end are the same, and so are the meanings of all names. -/
theorem evaluate_comm {a b : String} {s t : Expr} (ha : parse a = .ok s) (hb : parse b = .ok t)
    (hs : ∀ x r, s = .operation .assign (.name x) r → x ∉ t.names)
    (ht : ∀ x r, t = .operation .assign (.name x) r → x ∉ s.names) (w : Workspace) :
    outcome (evaluate a (workspaceAfter (evaluate b w))) = outcome (evaluate a w) ∧
    outcome (evaluate b (workspaceAfter (evaluate a w))) = outcome (evaluate b w) ∧
    (workspaceAfter (evaluate b (workspaceAfter (evaluate a w)))).environment.meanings.Perm
      (workspaceAfter (evaluate a (workspaceAfter (evaluate b w)))).environment.meanings ∧
    ∀ x, ((workspaceAfter (evaluate b (workspaceAfter (evaluate a w)))).environment.get? x).map
        Value.meaning =
      ((workspaceAfter (evaluate a (workspaceAfter (evaluate b w)))).environment.get? x).map
        Value.meaning := by
  have hfirst : outcome (evaluate a (workspaceAfter (evaluate b w))) = outcome (evaluate a w) :=
    outcome_evaluate_eq ha (agreeOn_evaluate hb ht w)
  have hsecond : outcome (evaluate b (workspaceAfter (evaluate a w))) = outcome (evaluate b w) :=
    outcome_evaluate_eq hb (agreeOn_evaluate ha hs w)
  -- What each text adds is told from its outcome, so it adds the same in both orders.
  have hends (c d : String) (p q : Expr) (hc : parse c = .ok p) (hd : parse d = .ok q)
      (h : outcome (evaluate d (workspaceAfter (evaluate c w))) = outcome (evaluate d w)) :
      (workspaceAfter (evaluate d (workspaceAfter (evaluate c w)))).environment.meanings =
        (q.binding? (outcome (evaluate d w))).toList ++
          ((p.binding? (outcome (evaluate c w))).toList ++ w.environment.meanings) := by
    rw [meanings_evaluate hd, meanings_evaluate hc, h]
  have hab := hends a b s t ha hb hsecond
  have hba := hends b a t s hb ha hfirst
  refine ⟨hfirst, hsecond, ?_, ?_⟩
  · rw [hab, hba]
    exact List.perm_append_comm_assoc _ _ _
  · intro x
    rw [← lookup_meanings, ← lookup_meanings, hab, hba]
    refine lookup_append_comm (fun p hp q hq hne => ?_) _ _
    rcases exists_assign_of_binding? hp with ⟨r, rfl⟩
    rcases exists_assign_of_binding? hq with ⟨r', rfl⟩
    exact ht p.1 r rfl (Expr.mem_names_operation.mpr (.inl (by simp [hne])))

/-- A new function and a constant that cannot be bound again. -/
theorem evaluate_comm_rebind :
    let f := workspaceAfter (evaluate "f = sin" .standard)
    let i := workspaceAfter (evaluate "i = e" .standard)
    outcome (evaluate "i = e" f) = .error (.runtime (.rebind "i")) ∧
      outcome (evaluate "f = sin" i) = .ok (.function (.total "sin" .sin)) ∧
      ((workspaceAfter (evaluate "i = e" f)).environment.get? "f").map Value.meaning =
        ((workspaceAfter (evaluate "f = sin" i)).environment.get? "f").map Value.meaning := by
  intro f i
  have hf : parse "f = sin" = .ok (.operation .assign (.name "f") (.name "sin")) := by cbv
  have hi : parse "i = e" = .ok (.operation .assign (.name "i") (.name "e")) := by cbv
  have hcomm := evaluate_comm hf hi (by rintro x r ⟨⟩; decide) (by rintro x r ⟨⟩; decide)
    .standard
  refine ⟨hcomm.2.1.trans ?_, hcomm.1.trans ?_, hcomm.2.2.2 "f"⟩
  · rw [evaluate_of_eval_error hi (Expr.eval_assign_of_contains rfl)]
    rfl
  · rw [evaluate_of_eval_ok hf rfl]
    rfl

end ZPlane
