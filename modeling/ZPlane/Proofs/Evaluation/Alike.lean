import ZPlane.Proofs.Evaluation.Assignment

/-!
# Environments With the Same Meanings

Two environments have the same meanings when the same names were bound in the same order
and mean the same. Their callables may differ in identity: an identity says which
construction a callable came from, and another history hands out other ones. No text can
tell such environments apart. It fails in both for the same reason, or its values mean the
same, and the environments that it leaves have the same meanings again.

## Main definitions

* `Environment.meanings`: The bound names with what they mean.
* `SameMeaning`: Two results of evaluation that differ in identities at most.

## Theorems

* `Environment.meanings_of_define`: What defining a name does to the meanings.
* `Expr.denote_eq_of_meanings`: Only the meanings of names matter to a meaning.
* `Expr.eval_sameMeaning`, `Expr.eval_assign_sameMeaning`: What that says of evaluation.
* `evaluate_sameMeaning`: A text has one meaning in environments with the same meanings.
-/

namespace ZPlane

namespace Environment

/-- The bound names, the latest first, with what they mean. -/
def meanings (env : Environment) : List (String × Meaning) :=
  env.bindings.map fun (x, v) => (x, v.meaning)

/-- A name that is defined comes to the front with what its value means. -/
theorem meanings_of_define {env env' : Environment} {x : String} {v : Value}
    (h : env.define x v = .ok env') : env'.meanings = (x, v.meaning) :: env.meanings := by
  rw [meanings, (define_eq_ok_iff.mp h).2]
  rfl

theorem lookup_meanings (env : Environment) (x : String) :
    env.meanings.lookup x = (env.get? x).map Value.meaning := by
  unfold meanings get?
  induction env.bindings with
  | nil => rfl
  | cons b bs ih =>
    rcases b with ⟨y, v⟩
    rw [List.map_cons, List.lookup_cons, List.lookup_cons]
    by_cases hx : x = y
    · simp [hx]
    · simpa [hx, beq_eq_false_iff_ne.mpr hx] using ih

variable {E F : Environment}

theorem meaning_get? (h : E.meanings = F.meanings) (x : String) :
    (E.get? x).map Value.meaning = (F.get? x).map Value.meaning := by
  rw [← lookup_meanings, ← lookup_meanings, h]

theorem contains_eq_of_meanings (h : E.meanings = F.meanings) (x : String) :
    E.contains x = F.contains x := by
  have hsome := congrArg Option.isSome (meaning_get? h x)
  simpa only [contains, Option.isSome_map] using hsome

end Environment

/-- Only the meanings of names matter to the meaning of an expression. -/
theorem Expr.denote_eq_of_meanings {E F : Environment} (h : E.meanings = F.meanings)
    (e : Expr) : e.denote E = e.denote F := by
  induction e with
  | literal z => rfl
  | name x =>
    have hx := Environment.meaning_get? h x
    unfold denote
    cases hE : E.get? x <;> cases hF : F.get? x <;> simp_all
  | operation op l r ihl ihr =>
    cases op with
    | arith a => simp only [denote, ihl, ihr]
    | assign => rfl
    | call => simp only [denote, ihl, ihr]

/-- Values that mean the same are one number, or callables with one mapping. -/
theorem Value.meaning_eq_cases {v u : Value} (h : v.meaning = u.meaning) :
    (∃ z, v = .number z ∧ u = .number z) ∨
      ∃ c d, v = .callable c ∧ u = .callable d ∧ c.mapping = d.mapping := by
  cases v with
  | number z =>
    cases u with
    | number z' => exact .inl ⟨z, rfl, by rw [Meaning.number.inj h]⟩
    | callable d => cases h
  | callable c =>
    cases u with
    | number z => cases h
    | callable d => exact .inr ⟨c, d, rfl, rfl, Meaning.function.inj h⟩

/-- Values that mean the same are shown by the same text. -/
theorem Value.text_eq_of_meaning {v u : Value} (h : v.meaning = u.meaning) :
    v.text = u.text := by
  rcases meaning_eq_cases h with ⟨z, rfl, rfl⟩ | ⟨c, d, rfl, rfl, -⟩ <;> rfl

/-- Two results that differ in identities at most. -/
inductive SameMeaning {ε : Type} :
    EStateM.Result ε Workspace Value → EStateM.Result ε Workspace Value → Prop
  | ok {v u : Value} {w w' : Workspace} : v.meaning = u.meaning →
      w.environment.meanings = w'.environment.meanings → SameMeaning (.ok v w) (.ok u w')
  | error {e : ε} {w w' : Workspace} :
      w.environment.meanings = w'.environment.meanings → SameMeaning (.error e w) (.error e w')

/-- Two such results are both values, or they are one failure. -/
theorem SameMeaning.inv {ε : Type} {r r' : EStateM.Result ε Workspace Value}
    (h : SameMeaning r r') :
    (∃ v u w w', r = .ok v w ∧ r' = .ok u w' ∧ v.meaning = u.meaning ∧
      w.environment.meanings = w'.environment.meanings) ∨
    ∃ e w w', r = .error e w ∧ r' = .error e w' ∧
      w.environment.meanings = w'.environment.meanings := by
  cases h with
  | ok hv henv => exact .inl ⟨_, _, _, _, rfl, rfl, hv, henv⟩
  | error henv => exact .inr ⟨_, _, _, rfl, rfl, henv⟩

/-- Results with one meaning differ in identities at most. -/
theorem Gives.sameMeaning {E F : Environment} {d : Except RuntimeError Meaning}
    {r r' : EStateM.Result RuntimeError Workspace Value} (hE : Gives E r d) (hF : Gives F r' d)
    (h : E.meanings = F.meanings) : SameMeaning r r' := by
  cases hE with
  | ok henv =>
    rcases r' with ⟨u, w⟩ | ⟨err, w⟩
    · rcases hF.of_ok with ⟨hd, henv'⟩
      exact .ok (Except.ok.inj hd) (by rw [henv, henv', h])
    · cases hF.of_error.1
  | error henv =>
    rcases r' with ⟨u, w⟩ | ⟨err, w⟩
    · cases hF.of_ok.1
    · rcases hF.of_error with ⟨hd, henv'⟩
      cases hd
      exact .error (by rw [henv, henv', h])

section Texts

variable {text : String} {w u : Workspace}

theorem Expr.eval_sameMeaning {e : Expr} (he : e.AssignFree)
    (h : w.environment.meanings = u.environment.meanings) :
    SameMeaning (e.eval w) (e.eval u) := by
  have hw := Expr.gives_eval he w
  rw [Expr.denote_eq_of_meanings h] at hw
  exact hw.sameMeaning (Expr.gives_eval he u) h

/-- An assignment binds the same name to values that mean the same, or fails alike. -/
theorem Expr.eval_assign_sameMeaning {x : String} {r : Expr} (hr : r.AssignFree)
    (h : w.environment.meanings = u.environment.meanings) :
    SameMeaning ((operation .assign (.name x) r).eval w)
      ((operation .assign (.name x) r).eval u) := by
  have hx := Environment.contains_eq_of_meanings h x
  by_cases hbound : w.environment.contains x = true
  · rw [eval_assign_of_contains hbound, eval_assign_of_contains (hx ▸ hbound)]
    exact .error h
  have hfree : w.environment.contains x = false := by simpa using hbound
  rcases (Expr.eval_sameMeaning hr h).inv with
    ⟨v, v', w', u', hrw, hru, hv, -⟩ | ⟨err, w', u', hrw, hru, herr⟩
  · rcases exists_eval_assign_of_ok hr hfree hrw with ⟨w'', hw'', hdefine, -⟩
    rcases exists_eval_assign_of_ok hr (hx ▸ hfree) hru with ⟨u'', hu'', hdefine', -⟩
    rw [hw'', hu'']
    refine .ok hv ?_
    rw [Environment.meanings_of_define hdefine, Environment.meanings_of_define hdefine', hv, h]
  · rw [eval_assign_of_error hfree hrw, eval_assign_of_error (hx ▸ hfree) hru]
    exact .error herr

theorem evaluate_sameMeaning_of_eval {e : Expr} (hparse : parse text = .ok e)
    (h : SameMeaning (e.eval w) (e.eval u)) :
    SameMeaning (evaluate text w) (evaluate text u) := by
  rcases h.inv with ⟨v, v', w', u', hw, hu, hv, henv⟩ | ⟨err, w', u', hw, hu, henv⟩
  · rw [evaluate_of_eval_ok hparse hw, evaluate_of_eval_ok hparse hu]
    exact .ok hv henv
  · rw [evaluate_of_eval_error hparse hw, evaluate_of_eval_error hparse hu]
    exact .error henv

/-- A text has one meaning in environments with the same meanings. -/
theorem evaluate_sameMeaning (h : w.environment.meanings = u.environment.meanings)
    (text : String) :
    SameMeaning (evaluate text w) (evaluate text u) := by
  rcases hparse : parse text with err | e
  · rw [evaluate_of_parse_error hparse, evaluate_of_parse_error hparse]
    exact .error h
  rcases assignFree_or_assign_of_parse hparse with hfree | ⟨x, r, rfl, hfree⟩
  · exact evaluate_sameMeaning_of_eval hparse (Expr.eval_sameMeaning hfree h)
  · exact evaluate_sameMeaning_of_eval hparse (Expr.eval_assign_sameMeaning hfree h)

end Texts

theorem SameMeaning.meanings_eq {ε : Type} {r r' : EStateM.Result ε Workspace Value}
    (h : SameMeaning r r') :
    (workspaceAfter r).environment.meanings = (workspaceAfter r').environment.meanings := by
  rcases h.inv with ⟨_, _, _, _, rfl, rfl, -, henv⟩ | ⟨_, _, _, rfl, rfl, henv⟩
  · exact henv
  · exact henv

end ZPlane
