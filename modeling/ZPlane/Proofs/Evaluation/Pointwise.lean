import ZPlane.Proofs.Evaluation.Meaning
import ZPlane.Proofs.Outcome

/-!
# Callables Are Evaluated Pointwise

Arithmetic on callables builds a new callable, and a call with a callable composes the two.
Whatever is built this way can be read off the expression at each point: put the value of a
callable at the point for its name, and calculate with numbers.

`Expr.reading` is that calculation. It is not evaluation at a point in disguise: only the
callee of a call is evaluated, since it has to be a callable before anything is applied to
it. Errors of the calculation come in the order in which it meets them. Some of these are
errors of evaluation, but a division by zero inside a callable shows only at the points
where it occurs.

## Main definitions

* `Expr.reading`: The value of an expression at a point.

## Theorems

* `Expr.apply_denote`: The meaning of an expression, applied at a point, is its reading.
* `Expr.eval_pointwise`: A number is its reading everywhere, and a callable gives the reading
  at every point.
-/

namespace ZPlane

/-- The value of an expression at a point, where a callable stands for its value there. -/
def Expr.reading (w : Workspace) (z : Complex) : Expr → Except RuntimeError Complex
  | .literal v => .ok v
  | .name x =>
    match w.environment.get? x with
    | some (.number v) => .ok v
    | some (.callable c) => c.mapping.apply z
    | none => .error (.unknownVariable x)
  | .operation (.arith a) left right => do
    let l ← left.reading w z
    let r ← right.reading w z
    a.apply l r
  | .operation .assign target _ => .error (.invalidAssignmentTarget target.text)
  | .operation .call callee argument =>
    match callee.eval w with
    | .ok (.callable c) _ => do
      let v ← argument.reading w z
      c.mapping.apply v
    | .ok (.number _) _ => do
      let _ ← argument.reading w z
      .error (.notCallable callee.text)
    | .error e _ => .error e

namespace Meaning

/-- Arithmetic on meanings is arithmetic at every point. -/
theorem apply_arith {a : Arith} {l r d : Meaning} (h : l.arith a r = .ok d) (z : Complex) :
    d.mapping.apply z = (Mapping.pointwise a l.mapping r.mapping).apply z := by
  cases l with
  | number u =>
    cases r with
    | number v =>
      rcases ok_of_map_eq_ok h with ⟨x, hx, rfl⟩
      exact hx.symm
    | function m =>
      cases h
      rfl
  | function m =>
    cases h
    rfl

/-- A call is the callee at the value of the argument, at every point. -/
theorem apply_call {m : Mapping} {v d : Meaning} (h : v.call m = .ok d) (z : Complex) :
    d.mapping.apply z = (Mapping.compose m v.mapping).apply z := by
  cases v with
  | number u =>
    rcases ok_of_map_eq_ok h with ⟨x, hx, rfl⟩
    exact hx.symm
  | function inner =>
    cases h
    rfl

end Meaning

/-- A callable is what has a mapping as its meaning. -/
theorem Gives.exists_callable {env : Environment} {m : Mapping}
    {result : EStateM.Result RuntimeError Workspace Value}
    (h : Gives env result (.ok (.function m))) :
    ∃ c w, result = .ok (.callable c) w ∧ c.mapping = m := by
  -- The meaning has to be a variable for the cases, and its shape rules two of them out.
  generalize hd : Except.ok (Meaning.function m) = d at h
  cases h with
  | error henv => cases hd
  | @ok v w henv =>
    cases v with
    | number z => cases hd
    | callable c =>
      cases hd
      exact ⟨c, w, rfl, rfl⟩

namespace Expr

/-- The meaning of an expression, applied at a point, is its reading. -/
theorem apply_denote {e : Expr} {w : Workspace} {d : Meaning} (he : e.AssignFree)
    (h : e.denote w.environment = .ok d) (z : Complex) : d.mapping.apply z = e.reading w z := by
  induction e generalizing d with
  | literal v =>
    cases h
    rfl
  | name x =>
    unfold denote at h
    unfold reading
    cases hx : w.environment.get? x with
    | none =>
      rw [hx] at h
      cases h
    | some v =>
      rw [hx] at h
      cases h
      cases v <;> rfl
  | operation op l r ihl ihr =>
    rcases he with ⟨hop, hl, hr⟩
    cases op with
    | assign => exact absurd rfl hop
    | arith a =>
      rcases ok_and_ok_of_bind h with ⟨u, hu, h⟩
      rcases ok_and_ok_of_bind h with ⟨v, hv, h⟩
      rw [Meaning.apply_arith h, Mapping.apply, ihl hl hu, ihr hr hv]
      rfl
    | call =>
      rcases ok_and_ok_of_bind h with ⟨f, hf, h⟩
      rcases ok_and_ok_of_bind h with ⟨v, hv, h⟩
      cases f with
      | number u => cases h
      | function m =>
        -- The reading evaluates the callee, so its value is compared with its meaning.
        have hcallee := gives_eval hl w
        rw [hf] at hcallee
        rcases hcallee.exists_callable with ⟨c, w', hc, rfl⟩
        rw [Meaning.apply_call h, Mapping.apply, ihr hr hv]
        simp only [reading, hc]

/-- A number is the reading of its expression everywhere, and a callable gives the reading
    at every point, with the same error where there is no value. -/
theorem eval_pointwise {e : Expr} (he : e.AssignFree) (w : Workspace) :
    (∀ v w', e.eval w = .ok (.number v) w' → ∀ z, e.reading w z = .ok v) ∧
      ∀ c w', e.eval w = .ok (.callable c) w' → ∀ z, c.mapping.apply z = e.reading w z := by
  have hgives := gives_eval he w
  refine ⟨?_, ?_⟩
  · intro v w' heval z
    rw [heval] at hgives
    exact (apply_denote he hgives.of_ok.1 z).symm
  · intro c w' heval z
    rw [heval] at hgives
    exact apply_denote he hgives.of_ok.1 z

/-- A composition plus a number is a callable, built after that of the composition. -/
theorem eval_pointwise_composition : ∃ (e : Expr) (w : Workspace), e.AssignFree ∧
    ∃ c w', e.eval w = .ok (.callable c) w' ∧ ∀ z, c.mapping.apply z = e.reading w z := by
  let e : Expr :=
    .operation (.arith .add) (.operation .call (.name "conj") (.name "conj")) (.literal .one)
  have he : e.AssignFree := ⟨by decide, ⟨by decide, trivial, trivial⟩, trivial⟩
  have heval : e.eval .standard = .ok (.callable ⟨6, .pointwise .add
      (.compose (.total "conj" .conj) (.total "conj" .conj)) (.constant .one)⟩)
      Workspace.standard.issue.issue := rfl
  exact ⟨e, .standard, he, _, _, heval, (eval_pointwise he .standard).2 _ _ heval⟩

end Expr

end ZPlane
