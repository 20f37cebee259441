import ZPlane.Proofs.Evaluation.Growth

/-!
# Why Evaluation Fails

A text that is an expression can still have no value, and there are few reasons for that. A
name is not bound, something that is called is a number, or there is a division by zero. An
assignment has one more: its name is bound already. The other failures are those of trees that
no text denotes.

A failure can also come out of a callable, which was built earlier and is applied now. So the
reasons depend on the callables in the environment. Those of the language have a value
everywhere, and a callable that is built from others fails where one of them does, or where it
divides by zero itself. This is kept by everything that is evaluated, so a division by zero is
the one failure that a callable can have in the end.

## Main definitions

* `Mapping.Elementary`: A mapping that is built from total primitives and constants.
* `Environment.Elementary`: All callables that are bound have such mappings.
* `Expr.Fault`: Why an expression without assignments fails.
* `Workspace.after`: The workspace after texts that were evaluated in order.

## Theorems

* `Mapping.Elementary.apply_error`: An elementary mapping fails by dividing by zero.
* `Expr.elementary_of_denote`: What is built from elementary mappings is elementary.
* `Environment.Elementary.after`: Evaluation keeps an environment elementary.
* `Expr.contains_of_denote`: What has a meaning has its names bound.
* `Expr.fault_of_denote`: What has no meaning has a reason for it.
* `eval_faults`: Why a text has no value, and what it takes to have one.
-/

namespace ZPlane

/-- A mapping that is built from total primitives and constants, by composition and by
    arithmetic. -/
inductive Mapping.Elementary : Mapping → Prop
  | total (name : String) (body : Complex → Complex) : Elementary (.total name body)
  | constant (z : Complex) : Elementary (.constant z)
  | compose {outer inner : Mapping} : Elementary outer → Elementary inner →
      Elementary (.compose outer inner)
  | pointwise (a : Arith) {left right : Mapping} : Elementary left → Elementary right →
      Elementary (.pointwise a left right)

/-- All callables that are bound have elementary mappings. -/
def Environment.Elementary (env : Environment) : Prop :=
  ∀ x c, env.get? x = some (.callable c) → c.mapping.Elementary

theorem Arith.apply_error {a : Arith} {z w : Complex} {err : RuntimeError}
    (h : a.apply z w = .error err) : err = .divisionByZero := by
  unfold Arith.apply at h
  split at h
  · cases h
  · exact (Except.error.inj h).symm

/-- An elementary mapping fails by dividing by zero. -/
theorem Mapping.Elementary.apply_error {m : Mapping} (hm : m.Elementary) {z : Complex}
    {err : RuntimeError} (h : m.apply z = .error err) : err = .divisionByZero := by
  induction hm generalizing z with
  | total name body => cases h
  | constant v => cases h
  | compose _ _ ihouter ihinner =>
    rcases error_cases_of_bind h with hinner | ⟨w, -, houter⟩
    · exact ihinner hinner
    · exact ihouter houter
  | pointwise a _ _ ihl ihr =>
    rcases error_cases_of_bind h with hl | ⟨u, -, h⟩
    · exact ihl hl
    rcases error_cases_of_bind h with hr | ⟨v, -, h⟩
    · exact ihr hr
    · exact Arith.apply_error h

namespace Meaning

variable {a : Arith} {m : Mapping} {l r v d : Meaning} {err : RuntimeError}

theorem elementary_arith (hl : l.mapping.Elementary) (hr : r.mapping.Elementary)
    (h : l.arith a r = .ok d) : d.mapping.Elementary := by
  cases l with
  | number z =>
    cases r with
    | number w =>
      rcases ok_of_map_eq_ok h with ⟨u, -, rfl⟩
      exact .constant u
    | function n =>
      cases h
      exact .pointwise a hl hr
  | function m =>
    cases h
    exact .pointwise a hl hr

theorem elementary_call (hm : m.Elementary) (hv : v.mapping.Elementary) (h : v.call m = .ok d) :
    d.mapping.Elementary := by
  cases v with
  | number z =>
    rcases ok_of_map_eq_ok h with ⟨u, -, rfl⟩
    exact .constant u
  | function inner =>
    cases h
    exact .compose hm hv

theorem arith_error (h : l.arith a r = .error err) : err = .divisionByZero := by
  cases l with
  | number z =>
    cases r with
    | number w => exact Arith.apply_error (error_of_map_eq_error h)
    | function n => cases h
  | function m => cases h

theorem call_error (hm : m.Elementary) (h : v.call m = .error err) : err = .divisionByZero := by
  cases v with
  | number z => exact hm.apply_error (error_of_map_eq_error h)
  | function inner => cases h

end Meaning

theorem Environment.Elementary.mapping_meaning {env : Environment} (h : env.Elementary)
    {x : String} {v : Value} (hx : env.get? x = some v) : v.meaning.mapping.Elementary := by
  cases v with
  | number z => exact .constant z
  | callable c => exact h x c hx

/-- The value of a meaning that is a number. -/
theorem Gives.exists_number {env : Environment} {z : Complex}
    {result : EStateM.Result RuntimeError Workspace Value}
    (h : Gives env result (.ok (.number z))) : ∃ w, result = .ok (.number z) w := by
  generalize hd : Except.ok (Meaning.number z) = d at h
  cases h with
  | error henv => cases hd
  | @ok v w henv =>
    cases v with
    | number u =>
      cases hd
      exact ⟨w, rfl⟩
    | callable c => cases hd

namespace Expr

variable {e : Expr} {w : Workspace} {err : RuntimeError}

/-- What is built from elementary mappings is elementary. -/
theorem elementary_of_denote {env : Environment} {d : Meaning} (henv : env.Elementary)
    (h : e.denote env = .ok d) : d.mapping.Elementary := by
  induction e generalizing d with
  | literal z =>
    cases h
    exact .constant z
  | name x =>
    unfold denote at h
    cases hx : env.get? x with
    | none =>
      rw [hx] at h
      cases h
    | some v =>
      rw [hx] at h
      cases h
      exact henv.mapping_meaning hx
  | operation op l r ihl ihr =>
    cases op with
    | assign => cases h
    | arith a =>
      rcases ok_and_ok_of_bind h with ⟨u, hu, h⟩
      rcases ok_and_ok_of_bind h with ⟨v, hv, h⟩
      exact Meaning.elementary_arith (ihl hu) (ihr hv) h
    | call =>
      rcases ok_and_ok_of_bind h with ⟨f, hf, h⟩
      rcases ok_and_ok_of_bind h with ⟨v, hv, h⟩
      cases f with
      | number z => cases h
      | function m => exact Meaning.elementary_call (ihl hf) (ihr hv) h

/-- What has a meaning has its names bound. -/
theorem contains_of_denote {env : Environment} {d : Meaning} (h : e.denote env = .ok d) :
    ∀ x ∈ e.names, env.contains x = true := by
  induction e generalizing d with
  | literal z => simp [names, addNames]
  | name y =>
    unfold denote at h
    intro x hx
    rw [List.mem_singleton.mp hx, Environment.contains]
    cases hy : env.get? y with
    | none =>
      rw [hy] at h
      cases h
    | some v => rfl
  | operation op l r ihl ihr =>
    -- Both operands are needed, whatever the operator is.
    have hboth {u v : Meaning} (hu : l.denote env = .ok u) (hv : r.denote env = .ok v) :
        ∀ x ∈ (operation op l r).names, env.contains x = true := by
      intro x hx
      rcases mem_names_operation.mp hx with hx | hx
      · exact ihl hu x hx
      · exact ihr hv x hx
    cases op with
    | assign => cases h
    | arith a =>
      rcases ok_and_ok_of_bind h with ⟨u, hu, h⟩
      rcases ok_and_ok_of_bind h with ⟨v, hv, -⟩
      exact hboth hu hv
    | call =>
      rcases ok_and_ok_of_bind h with ⟨f, hf, h⟩
      rcases ok_and_ok_of_bind h with ⟨v, hv, -⟩
      exact hboth hf hv

/-- Why an expression without assignments fails in a workspace: a name of it is not bound, a
    callee in it is a number, or there is a division by zero. -/
inductive Fault (w : Workspace) (e : Expr) : RuntimeError → Prop
  | unknown {x : String} : x ∈ e.names → w.environment.contains x = false →
      Fault w e (.unknownVariable x)
  | number {callee argument : Expr} {z : Complex} {w' : Workspace} :
      .operation .call callee argument ∈ e.subtrees → callee.eval w = .ok (.number z) w' →
      Fault w e (.notCallable callee.text)
  | zero : Fault w e .divisionByZero

namespace Fault

variable {l r : Expr}

theorem left (h : Fault w l err) (op : Operator) (r : Expr) : Fault w (.operation op l r) err := by
  cases h with
  | unknown hx hfree => exact .unknown (mem_names_operation.mpr (.inl hx)) hfree
  | number hcall hcallee =>
    exact .number (List.mem_cons_of_mem _ (List.mem_append_left _ hcall)) hcallee
  | zero => exact .zero

theorem right (h : Fault w r err) (op : Operator) (l : Expr) : Fault w (.operation op l r) err := by
  cases h with
  | unknown hx hfree => exact .unknown (mem_names_operation.mpr (.inr hx)) hfree
  | number hcall hcallee =>
    exact .number (List.mem_cons_of_mem _ (List.mem_append_right _ hcall)) hcallee
  | zero => exact .zero

end Fault

/-- What has no meaning has a reason for it. -/
theorem fault_of_denote (henv : w.environment.Elementary) (he : e.AssignFree)
    (h : e.denote w.environment = .error err) : e.Fault w err := by
  induction e with
  | literal z => cases h
  | name x =>
    unfold denote at h
    cases hx : w.environment.get? x with
    | none =>
      rw [hx] at h
      cases h
      exact .unknown (by simp) (Environment.contains_eq_false_iff.mpr hx)
    | some v =>
      rw [hx] at h
      cases h
  | operation op l r ihl ihr =>
    rcases he with ⟨hop, hl, hr⟩
    cases op with
    | assign => exact absurd rfl hop
    | arith a =>
      rcases error_cases_of_bind h with h | ⟨u, -, h⟩
      · exact (ihl hl h).left _ r
      rcases error_cases_of_bind h with h | ⟨v, -, h⟩
      · exact (ihr hr h).right _ l
      · exact Meaning.arith_error h ▸ .zero
    | call =>
      rcases error_cases_of_bind h with h | ⟨f, hf, h⟩
      · exact (ihl hl h).left _ r
      rcases error_cases_of_bind h with h | ⟨v, -, h⟩
      · exact (ihr hr h).right _ l
      cases f with
      | number z =>
        cases h
        -- The callee is evaluated in the same environment when the call is.
        have hcallee := gives_eval hl w
        rw [hf] at hcallee
        rcases hcallee.exists_number with ⟨w', hw'⟩
        exact .number List.mem_cons_self hw'
      | function m => exact Meaning.call_error (elementary_of_denote henv hf) h ▸ .zero

end Expr

namespace Workspace

/-- The workspace after texts that were evaluated in order, whether they failed or not. -/
def after (w : Workspace) (texts : List String) : Workspace :=
  texts.foldl (fun w text => workspaceAfter (evaluate text w)) w

end Workspace

namespace Environment

theorem elementary_standard (fresh : Nat) : (standard fresh).Elementary := by
  intro x c h
  rcases callable_of_standard h with ⟨m, k, hm, -, rfl⟩
  have htotal : ∀ m ∈ functions, m.Elementary := by
    simp only [functions, List.forall_mem_cons]
    exact ⟨.total _ _, .total _ _, .total _ _, .total _ _, .total _ _, by simp⟩
  exact htotal m (List.mem_of_getElem? hm)

namespace Elementary

variable {w : Workspace}

/-- A text binds nothing, or a name to what is built from elementary mappings. -/
theorem evaluate (h : w.environment.Elementary) (text : String) :
    (workspaceAfter (evaluate text w)).environment.Elementary := by
  rcases evaluate_cases text w with henv | ⟨x, r, v, w', hnew⟩
  · exact henv ▸ h
  rw [hnew.evaluate]
  intro y c hy
  rw [workspaceAfter, get?_of_define hnew.define] at hy
  by_cases hyx : y = x
  · rw [if_pos hyx] at hy
    cases hy
    rcases hnew.eval with ⟨w₁, hr⟩
    have hgives := Expr.gives_eval hnew.assignFree w
    rw [hr] at hgives
    exact Expr.elementary_of_denote h hgives.of_ok.1
  · rw [if_neg hyx] at hy
    exact h y c hy

theorem after (h : w.environment.Elementary) (texts : List String) :
    (w.after texts).environment.Elementary := by
  induction texts generalizing w with
  | nil => exact h
  | cons text texts ih => exact ih (h.evaluate text)

end Elementary

end Environment

namespace Expr

variable {e r : Expr} {x : String} {v : Value} {err : RuntimeError} {w w' : Workspace}

theorem contains_of_eval (he : e.AssignFree) (h : e.eval w = .ok v w') :
    ∀ x ∈ e.names, w.environment.contains x = true := by
  have hgives := gives_eval he w
  rw [h] at hgives
  exact contains_of_denote hgives.of_ok.1

theorem fault_of_eval (henv : w.environment.Elementary) (he : e.AssignFree)
    (h : e.eval w = .error err w') : e.Fault w err := by
  have hgives := gives_eval he w
  rw [h] at hgives
  exact fault_of_denote henv he hgives.of_error.1

/-- An assignment fails for its name, or because its right side does. -/
theorem eval_assign_error_cases (hr : r.AssignFree)
    (h : (operation .assign (.name x) r).eval w = .error err w') :
    (w.environment.contains x = true ∧ err = .rebind x) ∨ ∃ w₁, r.eval w = .error err w₁ := by
  cases hbound : w.environment.contains x with
  | true =>
    rw [eval_assign_of_contains hbound] at h
    cases h
    exact .inl ⟨rfl, rfl⟩
  | false =>
    rcases heval : r.eval w with ⟨u, w₁⟩ | ⟨err', w₁⟩
    · -- The right side binds nothing, so the name is still free.
      rcases exists_eval_assign_of_ok hr hbound heval with ⟨w₂, hassign, -⟩
      rw [hassign] at h
      cases h
    · rw [eval_assign_of_error hbound heval] at h
      cases h
      exact .inr ⟨_, rfl⟩

end Expr

/-- Whatever is evaluated from the constants and functions of the language on, the callables
    stay elementary. Where they are, a text with a value had all of its names bound, but for
    the one that it assigns. A text without a value has a fault, or it assigns a name that is
    bound. That an operator is none of arithmetic, or that a target is no name, is never the
    reason. -/
theorem eval_faults :
    (∀ (w : Workspace) fresh texts, w.environment = .standard fresh →
      (w.after texts).environment.Elementary) ∧
    ∀ text e (w : Workspace), parse text = .ok e → w.environment.Elementary →
      (∀ v w', e.eval w = .ok v w' → ∀ x ∈ e.names,
        (∀ r, e ≠ .operation .assign (.name x) r) → w.environment.contains x = true) ∧
      ∀ err w', e.eval w = .error err w' →
        (e.Fault w err ∨ ∃ x r, e = .operation .assign (.name x) r ∧
          w.environment.contains x = true ∧ err = .rebind x) ∧
        (∀ op, err ≠ .invalidOperand op) ∧ ∀ target, err ≠ .invalidAssignmentTarget target := by
  refine ⟨fun w fresh texts hw => ?_, ?_⟩
  · have hstart : w.environment.Elementary := hw ▸ Environment.elementary_standard fresh
    exact hstart.after texts
  intro text e w hparse henv
  refine ⟨fun v w' heval x hx hne => ?_, fun err w' heval => ?_⟩
  · rcases assignFree_or_assign_of_parse hparse with hfree | ⟨y, r, rfl, hfree⟩
    · exact Expr.contains_of_eval hfree heval x hx
    rcases Expr.mem_names_operation.mp hx with hx | hx
    · exact absurd (by rw [List.mem_singleton.mp hx]) (hne r)
    · rcases Expr.exists_of_eval_assign heval with ⟨_, w₁, -, -, hr, -⟩
      exact Expr.contains_of_eval hfree hr x hx
  · have hcause : e.Fault w err ∨ ∃ x r, e = .operation .assign (.name x) r ∧
        w.environment.contains x = true ∧ err = .rebind x := by
      rcases assignFree_or_assign_of_parse hparse with hfree | ⟨y, r, rfl, hfree⟩
      · exact .inl (Expr.fault_of_eval henv hfree heval)
      rcases Expr.eval_assign_error_cases hfree heval with ⟨hbound, rfl⟩ | ⟨w₁, hr⟩
      · exact .inr ⟨y, r, rfl, hbound, rfl⟩
      · exact .inl ((Expr.fault_of_eval henv hfree hr).right _ _)
    refine ⟨hcause, ?_, ?_⟩
    · rintro op rfl
      rcases hcause with hfault | ⟨_, _, -, -, hrebind⟩
      · cases hfault
      · cases hrebind
    · rintro target rfl
      rcases hcause with hfault | ⟨_, _, -, -, hrebind⟩
      · cases hfault
      · cases hrebind

/-- A call of `i` with a function fails, since `i` is a number. A composition has a value, and
    so what it is made of was bound. -/
theorem eval_faults_call :
    let w := Workspace.after .standard ["f = sin(cos)"]
    let call : Expr := .operation .call (.name "i") (.name "f")
    let sine : Expr := .operation .assign (.name "f") (.operation .call (.name "sin") (.name "cos"))
    parse "i(f)" = .ok call ∧ parse "f = sin(cos)" = .ok sine ∧
      w.environment.Elementary ∧ Workspace.standard.environment.Elementary ∧
      (∃ w', call.eval w = .error (.notCallable "i") w') ∧ call.Fault w (.notCallable "i") ∧
      (∃ v w', sine.eval .standard = .ok v w') ∧
      Workspace.standard.environment.contains "cos" = true := by
  intro w call sine
  have hcall : parse "i(f)" = .ok call := by cbv
  have hsine : parse "f = sin(cos)" = .ok sine := by cbv
  rcases eval_faults with ⟨hreached, hcauses⟩
  have hw := hreached .standard 0 ["f = sin(cos)"] rfl
  have hstandard := hreached .standard 0 [] rfl
  have hvalue : ∃ v w', sine.eval .standard = .ok v w' := ⟨_, _, rfl⟩
  have hfails : ∃ w', call.eval w = .error (.notCallable "i") w' := by
    have hafter : w = workspaceAfter (evaluate "f = sin(cos)" .standard) := rfl
    rw [hafter, evaluate_of_eval_ok hsine rfl]
    exact ⟨_, rfl⟩
  refine ⟨hcall, hsine, hw, hstandard, hfails, ?_, hvalue, ?_⟩
  · rcases hfails with ⟨w', hfails⟩
    exact ((hcauses _ _ w hcall hw).2 _ _ hfails).1.resolve_right (by simp [call])
  · rcases hvalue with ⟨v, w', hvalue⟩
    exact (hcauses _ _ _ hsine hstandard).1 v w' hvalue "cos" (by decide) (by simp [sine])

end ZPlane
