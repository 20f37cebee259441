import ZPlane.Proofs.Evaluation.Supply
import ZPlane.Proofs.Grammar

/-!
# The Meaning of Expressions Without Assignments

Evaluation works in a workspace, but an expression without assignments only looks at the
environment and never changes it. All that it uses up are identities, and those tell
callables apart without saying what they do.

`Expr.denote` is evaluation with the workspace taken out. It gives a number or a mapping,
as a function of the environment, and `Expr.gives_eval` compares the two: they give the
same result or fail for the same reason. Whatever is true of the meaning of an expression
is then true of its value in any workspace with that environment.

## Main definitions

* `Meaning`: A number or a mapping.
* `Expr.denote`: The meaning of an expression in an environment.
* `Gives`: A result of evaluation that has a given meaning, in an environment that is
  what it was.

## Theorems

* `Expr.eval_arith`: Evaluation that leaves no trace.
* `Gives.bind`: What follows a computation follows its meaning.
* `Expr.gives_eval`: The value of an expression has its meaning, and the environment is
  unchanged.
-/

namespace ZPlane

/-- What a value is, without the identity of a callable. -/
inductive Meaning
  | number (z : Complex)
  | function (m : Mapping)

/-- The meaning of a value. -/
def Value.meaning : Value → Meaning
  | .number z => .number z
  | .callable c => .function c.mapping

namespace Meaning

/-- The meaning as a mapping, where a number is the constant one. -/
def mapping : Meaning → Mapping
  | .number z => .constant z
  | .function m => m

/-- An arithmetic operator: at once on two numbers, and pointwise otherwise. -/
def arith (a : Arith) : Meaning → Meaning → Except RuntimeError Meaning
  | .number z, .number w => .number <$> a.apply z w
  | left, right => .ok (.function (.pointwise a left.mapping right.mapping))

/-- A call: at once with a number, and a composition otherwise. -/
def call (m : Mapping) : Meaning → Except RuntimeError Meaning
  | .number z => .number <$> m.apply z
  | .function inner => .ok (.function (.compose m inner))

end Meaning

/-- The meaning of an expression in an environment. An assignment has none. -/
def Expr.denote (env : Environment) : Expr → Except RuntimeError Meaning
  | .literal z => .ok (.number z)
  | .name x =>
    match env.get? x with
    | some value => .ok value.meaning
    | none => .error (.unknownVariable x)
  | .operation (.arith a) left right => do
    let l ← left.denote env
    let r ← right.denote env
    l.arith a r
  | .operation .assign target _ => .error (.invalidAssignmentTarget target.text)
  | .operation .call callee argument => do
    let f ← callee.denote env
    let value ← argument.denote env
    match f with
    | .function m => value.call m
    | .number _ => .error (.notCallable callee.text)

/-- Operands that are evaluated to numbers without a trace leave the operator to those
    numbers. -/
theorem Expr.eval_arith {a : Arith} {l r : Expr} {z w v : Complex} {s : Workspace}
    (hl : l.eval s = .ok (.number z) s) (hr : r.eval s = .ok (.number w) s)
    (hv : a.apply z w = .ok v) :
    (Expr.operation (.arith a) l r).eval s = .ok (.number v) s := by
  change EStateM.bind l.eval _ s = _
  simp only [EStateM.bind, hl]
  change EStateM.bind r.eval _ s = _
  simp only [EStateM.bind, hr, Value.operate, Value.arith, hv]
  rfl

/-- A result of evaluation with the given meaning, in an environment that is `env`. -/
inductive Gives (env : Environment) :
    EStateM.Result RuntimeError Workspace Value → Except RuntimeError Meaning → Prop
  | ok {v : Value} {w : Workspace} : w.environment = env → Gives env (.ok v w) (.ok v.meaning)
  | error {e : RuntimeError} {w : Workspace} : w.environment = env →
      Gives env (.error e w) (.error e)

namespace Gives

variable {env : Environment} {w : Workspace}

theorem of_ok {v : Value} {d : Except RuntimeError Meaning} (h : Gives env (.ok v w) d) :
    d = .ok v.meaning ∧ w.environment = env := by
  cases h with
  | ok henv => exact ⟨rfl, henv⟩

theorem of_error {e : RuntimeError} {d : Except RuntimeError Meaning}
    (h : Gives env (.error e w) d) : d = .error e ∧ w.environment = env := by
  cases h with
  | error henv => exact ⟨rfl, henv⟩

/-- What follows a computation follows its meaning. -/
theorem bind {x : Eval Value} {f : Value → Eval Value} {d : Except RuntimeError Meaning}
    {k : Meaning → Except RuntimeError Meaning} (hx : Gives env (x w) d)
    (hf : ∀ v w', w'.environment = env → Gives env (f v w') (k v.meaning)) :
    Gives env ((x >>= f) w) (d >>= k) := by
  change Gives env (EStateM.bind x f w) (Except.bind d k)
  unfold EStateM.bind
  -- Only the result of the first half matters, not how it came about.
  generalize x w = result at hx
  cases hx with
  | ok h => exact hf _ _ h
  | error h => exact .error h

/-- A number that is known already, or the reason why there is none. -/
theorem number (h : w.environment = env) (r : Except RuntimeError Complex) :
    Gives env ((Value.number <$> Eval.ofExcept r) w) (Meaning.number <$> r) := by
  cases r with
  | error e => exact .error h
  | ok z => exact .ok (v := .number z) h

/-- A new callable means its mapping. -/
theorem introduce (h : w.environment = env) (m : Mapping) :
    Gives env (Eval.introduce m w) (.ok (.function m)) :=
  .ok (v := .callable ⟨w.fresh, m⟩) h

theorem arith (h : w.environment = env) (a : Arith) (l r : Value) :
    Gives env (l.arith a r w) (l.meaning.arith a r.meaning) := by
  cases l with
  | number z =>
    cases r with
    | number u => exact number h _
    | callable c => exact introduce h _
  | callable c => cases r <;> exact introduce h _

theorem invoke (h : w.environment = env) (c : Callable) (v : Value) :
    Gives env (c.invoke v w) (v.meaning.call c.mapping) := by
  cases v with
  | number z => exact number h _
  | callable inner => exact introduce h _

end Gives

/-- The value of an expression has its meaning, and the environment is unchanged. -/
theorem Expr.gives_eval {e : Expr} (h : e.AssignFree) (w : Workspace) :
    Gives w.environment (e.eval w) (e.denote w.environment) := by
  -- The left operand hands its workspace to the right one, so the induction is for all of
  -- them with one environment.
  generalize henv : w.environment = env
  induction e generalizing w with
  | literal z => exact .ok (v := .number z) henv
  | name x =>
    change Gives env (Eval.lookup x w) _
    rw [Expr.denote, Eval.lookup_eq, ← henv]
    cases w.environment.get? x with
    | none => exact .error rfl
    | some v => exact .ok rfl
  | operation op l r ihl ihr =>
    rcases h with ⟨hop, hl, hr⟩
    cases op with
    | assign => exact absurd rfl hop
    | arith a =>
      refine Gives.bind (ihl hl w henv) fun u w' henv' => ?_
      refine Gives.bind (ihr hr w' henv') fun v w'' henv'' => ?_
      exact Gives.arith henv'' a u v
    | call =>
      refine Gives.bind (ihl hl w henv) fun u w' henv' => ?_
      refine Gives.bind (ihr hr w' henv') fun v w'' henv'' => ?_
      -- The argument is evaluated before the callee is looked at.
      cases u with
      | number z => exact .error henv''
      | callable c => exact Gives.invoke henv'' c v

end ZPlane
