import ZPlane.Value.Basic

/-!
# Environments

An environment binds names to values, each name at most once: a name that is
bound keeps its value for good. To go on in two ways from one point, keep the
environment and use it twice.

That no name is bound twice is part of an environment, so it does not matter
whether a binding is looked for from the front or is found anywhere in the list.

## Main definitions

* `Environment`: Names with their values.
* `Environment.get?`: The value of a name.
* `Environment.define`: Binds a new name.
* `Environment.names`: The bound names in order.

## Theorems

* `Environment.get?_eq_some_iff`: A name has the value that it is bound to.
* `Environment.define_eq_ok_iff`: What it takes to define a name.
* `Environment.get?_of_define`: Defining a name changes that name alone.
-/

namespace ZPlane

/-- Names with their values, the latest binding first. -/
@[ext]
structure Environment where
  bindings : List (String × Value)
  /-- No name is bound twice. -/
  nodup : (bindings.map Prod.fst).Nodup

namespace Environment

/-- The environment that binds nothing. -/
def empty : Environment :=
  ⟨[], List.nodup_nil⟩

/-- The value that a name is bound to. -/
def get? (env : Environment) (name : String) : Option Value :=
  env.bindings.lookup name

/-- Whether a name is bound. -/
def contains (env : Environment) (name : String) : Bool :=
  (env.get? name).isSome

theorem get?_eq_none_iff {env : Environment} {x : String} :
    env.get? x = none ↔ x ∉ env.bindings.map Prod.fst := by
  rw [get?, List.lookup_eq_none_iff, List.mem_map]
  constructor
  · rintro h ⟨b, hb, rfl⟩
    simpa using h b hb
  · intro h b hb
    exact bne_iff_ne.mpr fun hx => h ⟨b, hb, hx.symm⟩

theorem contains_eq_false_iff {env : Environment} {x : String} :
    env.contains x = false ↔ env.get? x = none := by
  simp [contains]

/-- Binds a name that is not bound yet. -/
def define (env : Environment) (name : String) (value : Value) :
    Except RuntimeError Environment :=
  if h : env.contains name = true then
    .error (.rebind name)
  else
    .ok ⟨(name, value) :: env.bindings, List.nodup_cons.mpr
      ⟨get?_eq_none_iff.mp (contains_eq_false_iff.mp (Bool.eq_false_iff.mpr h)), env.nodup⟩⟩

/-- The number of bound names. -/
def size (env : Environment) : Nat :=
  env.bindings.length

/-- Whether nothing is bound. -/
def isEmpty (env : Environment) : Bool :=
  env.bindings.isEmpty

/-- The bound names in the order of their characters. -/
def names (env : Environment) : List String :=
  (env.bindings.map Prod.fst).mergeSort fun x y => decide (x ≤ y)

variable {env env' : Environment} {x : String} {v : Value}

/-- A name has the value that it is bound to, wherever in the list the binding
    is. -/
theorem get?_eq_some_iff : env.get? x = some v ↔ (x, v) ∈ env.bindings := by
  rw [get?, List.lookup_eq_some_iff]
  constructor
  · rintro ⟨before, later, hbindings, -⟩
    simp [hbindings]
  · intro hmem
    rcases List.append_of_mem hmem with ⟨before, later, hbindings⟩
    refine ⟨before, later, hbindings, fun b hb => ?_⟩
    -- An earlier binding of the name would be a second one.
    have hnodup := env.nodup
    rw [hbindings, List.map_append, List.nodup_append] at hnodup
    exact bne_iff_ne.mpr (hnodup.2.2 b.1 (List.mem_map_of_mem hb) x (by simp)).symm

theorem define_of_contains (h : env.contains x = true) (v : Value) :
    env.define x v = .error (.rebind x) :=
  dif_pos h

/-- A name is defined if it is free, and its binding comes to the front. -/
theorem define_eq_ok_iff : env.define x v = .ok env' ↔
    env.get? x = none ∧ env'.bindings = (x, v) :: env.bindings := by
  rw [← contains_eq_false_iff, define]
  split
  · next hbound => simp [hbound]
  · next hfree => simp [hfree, Environment.ext_iff, eq_comm]

/-- A free name can be defined. -/
theorem exists_define (h : env.get? x = none) (v : Value) : ∃ env', env.define x v = .ok env' :=
  ⟨⟨(x, v) :: env.bindings, List.nodup_cons.mpr ⟨get?_eq_none_iff.mp h, env.nodup⟩⟩,
    define_eq_ok_iff.mpr ⟨h, rfl⟩⟩

/-- What defining a name changes is that name alone. -/
theorem get?_of_define (h : env.define x v = .ok env') (y : String) :
    env'.get? y = if y = x then some v else env.get? y := by
  rw [get?, (define_eq_ok_iff.mp h).2, List.lookup_cons]
  by_cases hy : y = x
  · simp [hy]
  · simp [hy, beq_eq_false_iff_ne.mpr hy, get?]

end Environment

end ZPlane
