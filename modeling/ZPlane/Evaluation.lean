import ZPlane.Environment

/-!
# Evaluation

An expression is evaluated in a workspace: the environment, and the first
identity that no callable has yet. Evaluation may bind names and use up
identities, and keeps what it did when it fails later on. The identities are
handed out apart from the environment, because two copies of one environment
must still build different callables.

A workspace never holds a callable under an identity that is still to be handed
out. To keep that up, binding a value also reserves its identity. A value that
was evaluated in the workspace has an identity that was handed out there, so for
it nothing is left to reserve.

Arithmetic on two numbers is done at once. Where one operand is a callable, the
result is a new callable that joins the operands pointwise, and a number among
them is taken as a constant mapping. A call with a number applies the callee, and
a call with a callable composes the two.

## Main definitions

* `Workspace`: An environment and the first unused identity.
* `Workspace.issue`: Hands out an identity.
* `Workspace.define`: Binds a new name.
* `Eval`: A computation in a workspace.
* `Value.arith`: An arithmetic operator on values.
* `Value.operate`: Any operator on values.
* `Callable.invoke`: A call.
* `Expr.eval`: The value of an expression.
* `Workspace.standard`: The workspace with the constants and functions of the
  language.

## Theorems

* `Workspace.define_eq_ok_iff`: What it takes to define a name.
* `Environment.callable_of_standard`: The identities of the functions of the
  language.
-/

namespace ZPlane

/-- Where expressions are evaluated. -/
@[ext]
structure Workspace where
  environment : Environment
  /-- The first identity that no callable has yet. -/
  fresh : Nat
  /-- Callables that are bound have identities that were handed out. -/
  identity_lt : ∀ {name : String} {c : Callable},
    environment.get? name = some (.callable c) → c.identity < fresh

namespace Workspace

/-- The workspace when its first unused identity has been handed out. -/
def issue (w : Workspace) : Workspace :=
  ⟨w.environment, w.fresh + 1, fun h => Nat.lt_succ_of_lt (w.identity_lt h)⟩

theorem identity_lt_of_define {w : Workspace} {env : Environment} {x y : String} {v : Value}
    {c : Callable} (h : w.environment.define x v = .ok env) (hy : env.get? y = some (.callable c)) :
    c.identity < max w.fresh v.ceiling := by
  rw [Environment.get?_of_define h] at hy
  split at hy
  · cases hy
    exact Nat.lt_of_lt_of_le (Nat.lt_succ_self _) (Nat.le_max_right _ _)
  · exact Nat.lt_of_lt_of_le (w.identity_lt hy) (Nat.le_max_left _ _)

/-- Binds a name that is not bound yet, and reserves the identity of its
    value. -/
def define (w : Workspace) (name : String) (value : Value) : Except RuntimeError Workspace :=
  match h : w.environment.define name value with
  | .error e => .error e
  | .ok environment => .ok ⟨environment, max w.fresh value.ceiling, identity_lt_of_define h⟩

variable {w w' : Workspace} {x : String} {v : Value}

theorem define_of_contains (h : w.environment.contains x = true) (v : Value) :
    w.define x v = .error (.rebind x) := by
  unfold define
  split
  · next herror =>
    rw [Environment.define_of_contains h] at herror
    rw [Except.error.inj herror]
  · next hok =>
    rw [Environment.define_of_contains h] at hok
    cases hok

/-- A name is defined if it is free, and the identity of its value is reserved
    unless it was handed out already. -/
theorem define_eq_ok_iff : w.define x v = .ok w' ↔
    w.environment.define x v = .ok w'.environment ∧ w'.fresh = max w.fresh v.ceiling := by
  unfold define
  split
  · next herror => simp [herror]
  · next hok => simp [hok, Workspace.ext_iff, eq_comm]

/-- A free name can be defined. -/
theorem exists_define (h : w.environment.get? x = none) (v : Value) :
    ∃ w', w.define x v = .ok w' := by
  rcases Environment.exists_define h v with ⟨env, henv⟩
  exact ⟨⟨env, max w.fresh v.ceiling, identity_lt_of_define henv⟩,
    define_eq_ok_iff.mpr ⟨henv, rfl⟩⟩

end Workspace

/-- A computation that may change the workspace, also when it fails. -/
abbrev Eval : Type → Type :=
  EStateM RuntimeError Workspace

namespace Eval

/-- A result that is known already. -/
def ofExcept {α : Type} : Except RuntimeError α → Eval α
  | .ok a => pure a
  | .error e => throw e

/-- A new callable for a mapping. -/
def introduce (m : Mapping) : Eval Value := do
  let w ← get
  set w.issue
  return .callable ⟨w.fresh, m⟩

/-- The value of a name. -/
def lookup (name : String) : Eval Value := do
  match (← get).environment.get? name with
  | some value => return value
  | none => throw (.unknownVariable name)

/-- Binds a name. -/
def define (name : String) (value : Value) : Eval Unit := do
  let w ← get
  set (← ofExcept (w.define name value))

end Eval

/-- An arithmetic operator on values. -/
def Value.arith (a : Arith) : Value → Value → Eval Value
  | .number z, .number w => .number <$> Eval.ofExcept (a.apply z w)
  | left, right => Eval.introduce (.pointwise a left.mapping right.mapping)

/-- An operator on values. Assignment and call do not act on values, whatever
    these are. -/
def Value.operate (op : Operator) (left right : Value) : Eval Value :=
  match op with
  | .arith a => left.arith a right
  | op => throw (.invalidOperand op)

/-- A call of `c` with a value. -/
def Callable.invoke (c : Callable) : Value → Eval Value
  | .number z => .number <$> Eval.ofExcept (c.mapping.apply z)
  | .callable inner => Eval.introduce (.compose c.mapping inner.mapping)

/-- The value of an expression. Operands are evaluated from left to right, and a
    callee before it is known whether it can be called. An assignment looks at
    its name first, and again when the value is there, since the value may have
    bound the name itself. -/
def Expr.eval : Expr → Eval Value
  | .literal z => return .number z
  | .name x => Eval.lookup x
  | .operation .assign (.name x) right => do
    if (← get).environment.contains x then
      throw (.rebind x)
    else
      let value ← right.eval
      Eval.define x value
      return value
  | .operation .assign target _ => throw (.invalidAssignmentTarget target.text)
  | .operation .call callee argument => do
    let f ← callee.eval
    let value ← argument.eval
    match f with
    | .callable c => c.invoke value
    | .number _ => throw (.notCallable callee.text)
  | .operation op left right => do
    let l ← left.eval
    let r ← right.eval
    l.operate op r

namespace Environment

/-- The constants of the language. -/
def constants : List (String × Complex) :=
  [("pi", .ofReal 3.141592653589793), ("e", .ofReal 2.718281828459045), ("i", .i)]

/-- The functions of the language. -/
def functions : List Mapping :=
  [.total "sqrt" .sqrt, .total "cos" .cos, .total "sin" .sin, .total "tan" .tan,
    .total "conj" .conj]

/-- The constants and functions of the language, where the functions take the
    identities from `fresh` on. -/
def standard (fresh : Nat) : Environment where
  bindings := constants.map (fun (name, z) => (name, .number z)) ++
    functions.zipIdx.map fun (m, k) => (m.name, .callable ⟨fresh + k, m⟩)
  nodup := by
    change ["pi", "e", "i", "sqrt", "cos", "sin", "tan", "conj"].Nodup
    decide

/-- The functions of the language take the identities from the given one on. -/
theorem callable_of_standard {n : Nat} {x : String} {c : Callable}
    (h : (standard n).get? x = some (.callable c)) :
    ∃ m k, functions[k]? = some m ∧ x = m.name ∧ c = ⟨n + k, m⟩ := by
  have hmem := get?_eq_some_iff.mp h
  unfold standard at hmem
  rcases List.mem_append.mp hmem with hmem | hmem
  · -- The constants are numbers.
    rcases List.mem_map.mp hmem with ⟨⟨y, z⟩, -, heq⟩
    cases heq
  · rcases List.mem_map.mp hmem with ⟨⟨m, k⟩, hm, heq⟩
    cases heq
    exact ⟨m, k, List.mem_zipIdx_iff_getElem?.mp hm, rfl, rfl⟩

theorem identity_lt_of_standard {n : Nat} {x : String} {c : Callable}
    (h : (standard n).get? x = some (.callable c)) : c.identity < n + functions.length := by
  rcases callable_of_standard h with ⟨m, k, hm, -, rfl⟩
  exact Nat.add_lt_add_left (List.getElem?_eq_some_iff.mp hm).1 n

end Environment

namespace Workspace

/-- The workspace with nothing bound. -/
def empty : Workspace :=
  ⟨.empty, 0, fun h => by cases h⟩

/-- The workspace with the constants and functions of the language. -/
def standard : Workspace :=
  ⟨.standard 0, Environment.functions.length, fun h => by
    simpa using Environment.identity_lt_of_standard h⟩

end Workspace

end ZPlane
