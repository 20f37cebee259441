import ZPlane.Proofs.Names
import ZPlane.Proofs.Outcome
import ZPlane.Proofs.Shader.Splicing

/-!
# Which Operator an Expression Is Rejected For

Sums, differences and products have shader text, and no other operator has. An expression is
rejected as soon as one of its operators has no text, and it is rejected for the first of them
in the order of evaluation: the operators of the left operand come first, then those of the
right one, and the operator between them comes last. An assignment is therefore reported only
if nothing is wrong with what is assigned.

How names are spelled has no part in this. So an expression has a fragment shader if it has
shader text and is rejected for the same operator if it has none. What the fragment shader holds
is the shader text of another tree, where each name is replaced by its spelling.

## Main definitions

* `Expr.operators`: The operators of an expression in the order of evaluation.
* `Shader.supported`: The operators that have text.
* `Shader.rejected?`: The operator that an expression is rejected for.

## Theorems

* `Shader.emit_cases`: An expression has text, or is rejected for an operator.
* `Shader.emit_eq_error_iff`, `Shader.exists_emit_iff`: When it is, and for what.
* `Shader.emit_rename`: Other names and other spellings come to the same.
* `Shader.text_rejects`: What is rejected, for which operator, and what is written otherwise.
-/

namespace ZPlane

/-- The operators of an expression in the order of evaluation: those of its operands, and the
    operator that joins them. -/
def Expr.operators : Expr → List Operator
  | .literal _ => []
  | .name _ => []
  | .operation op l r => l.operators ++ r.operators ++ [op]

namespace Shader

/-- The operators that have text. -/
def supported : List Operator :=
  [.arith .add, .arith .sub, .arith .mul]

/-- The first operator of an expression that has no text. -/
def rejected? (e : Expr) : Option Operator :=
  e.operators.find? (· ∉ supported)

theorem operation_cases (op : Operator) (a b : String) :
    (op ∈ supported ∧ ∃ text, operation op a b = .ok text) ∨
      (op ∉ supported ∧ operation op a b = .error (.unsupportedOperation op)) := by
  cases op with
  | assign => exact .inr ⟨by decide, rfl⟩
  | call => exact .inr ⟨by decide, rfl⟩
  | arith op =>
    cases op with
    | add => exact .inl ⟨by decide, _, rfl⟩
    | sub => exact .inl ⟨by decide, _, rfl⟩
    | mul => exact .inl ⟨by decide, _, rfl⟩
    | div => exact .inr ⟨by decide, rfl⟩
    | pow => exact .inr ⟨by decide, rfl⟩

/-- What is written for an operation: a sum, a difference or a product. -/
theorem operation_eq_ok {op : Operator} {a b text : String} (h : operation op a b = .ok text) :
    text = sum "+" a b ∨ text = sum "-" a b ∨ text = product a b := by
  unfold operation at h
  split at h
  · exact .inl (Except.ok.inj h).symm
  · exact .inr (.inl (Except.ok.inj h).symm)
  · exact .inr (.inr (Except.ok.inj h).symm)
  · cases h

theorem rejected?_operation (op : Operator) (l r : Expr) :
    rejected? (.operation op l r) =
      ((rejected? l).or (rejected? r)).or (if op ∈ supported then none else some op) := by
  unfold rejected?
  rw [Expr.operators, List.find?_append, List.find?_append, List.find?_singleton]
  simp

section Emission

variable {spell : String → String} {e : Expr} {op : Operator} {err : ShaderError}

/-- An operation is written when its operands are. -/
theorem emit_operation {l r : Expr} {a b : String} (ha : emit spell l = .ok a)
    (hb : emit spell r = .ok b) : emit spell (.operation op l r) = operation op a b := by
  simp only [emit, ha, hb]
  rfl

/-- An expression has text, or is rejected for the first operator that has none. -/
theorem emit_cases (spell : String → String) (e : Expr) :
    (rejected? e = none ∧ ∃ text, emit spell e = .ok text) ∨
      ∃ op, rejected? e = some op ∧ emit spell e = .error (.unsupportedOperation op) := by
  induction e with
  | literal z => exact .inl ⟨rfl, _, rfl⟩
  | name x => exact .inl ⟨rfl, _, rfl⟩
  | operation op l r ihl ihr =>
    rw [rejected?_operation]
    -- The first failure is the one that is reported: left, right, and then the operator.
    rcases ihl with ⟨hl, a, ha⟩ | ⟨op', hl, ha⟩
    · rcases ihr with ⟨hr, b, hb⟩ | ⟨op', hr, hb⟩
      · rw [emit_operation ha hb, hl, hr]
        rcases operation_cases op a b with ⟨hop, text, htext⟩ | ⟨hop, herr⟩
        · exact .inl ⟨by simp [hop], text, htext⟩
        · exact .inr ⟨op, by simp [hop], herr⟩
      · refine .inr ⟨op', by simp [hl, hr], ?_⟩
        simp only [emit, ha, hb]
        rfl
    · refine .inr ⟨op', by simp [hl], ?_⟩
      simp only [emit, ha]
      rfl

theorem emit_eq_error_iff :
    emit spell e = .error err ↔ ∃ op, rejected? e = some op ∧ err = .unsupportedOperation op := by
  rcases emit_cases spell e with ⟨hnone, text, htext⟩ | ⟨op, hop, herr⟩
  · simp [hnone, htext]
  · simp [hop, herr, eq_comm]

theorem exists_emit_iff : (∃ text, emit spell e = .ok text) ↔ rejected? e = none := by
  rcases emit_cases spell e with ⟨hnone, hemit⟩ | ⟨op, hop, herr⟩
  · simp [hnone, hemit]
  · simp [hop, herr]

/-- The operator that an expression is rejected for has no text, and all before it have. -/
theorem rejected?_eq_some_iff : rejected? e = some op ↔
    ∃ before later, e.operators = before ++ op :: later ∧
      (∀ o ∈ before, o ∈ supported) ∧ op ∉ supported := by
  unfold rejected?
  rw [List.find?_eq_some_iff_append]
  simp only [decide_eq_true_eq, Bool.not_eq_true', decide_eq_false_iff_not, not_not]
  constructor
  · rintro ⟨hop, before, later, heq, hbefore⟩
    exact ⟨before, later, heq, hbefore, hop⟩
  · rintro ⟨before, later, heq, hbefore, hop⟩
    exact ⟨hop, before, later, heq, hbefore⟩

theorem rejected?_eq_none_iff : rejected? e = none ↔ ∀ op ∈ e.operators, op ∈ supported := by
  simp [rejected?]

/-- To replace the names is to spell them otherwise. -/
theorem emit_rename (spell f : String → String) (e : Expr) :
    emit spell (e.rename f) = emit (spell ∘ f) e := by
  induction e with
  | literal z => rfl
  | name x => rfl
  | operation op l r ihl ihr => simp only [Expr.rename, emit, ihl, ihr]

end Emission

/-- Filling the template does not fail. -/
theorem fragment_eq_error_iff {e : Expr} {err : ShaderError} :
    fragment e = .error err ↔ emit spelling e = .error err := by
  rcases hbody : emit spelling e with err' | body
  · unfold fragment
    rw [hbody]
    rfl
  · rw [fragment_of_emit hbody]
    simp

theorem exists_fragment_iff {e : Expr} :
    (∃ shader, fragment e = .ok shader) ↔ rejected? e = none := by
  rw [← @exists_emit_iff spelling]
  constructor
  · rintro ⟨shader, hshader⟩
    rcases ok_and_ok_of_bind hshader with ⟨body, hbody, -⟩
    exact ⟨body, hbody⟩
  · rintro ⟨body, hbody⟩
    exact ⟨_, fragment_of_emit hbody⟩

/-- Shader text is refused exactly to the expressions with an operator other than a sum, a
    difference and a product, for the first such operator in the order of evaluation. The
    fragment shader is refused to the same expressions for the same operator. Otherwise the
    expression in it is the shader text of the tree in which each name but that of the point has
    `u_` in front. -/
theorem text_rejects (e : Expr) :
    ((∃ err, text e = .error err) ↔ ∃ op ∈ e.operators, op ∉ supported) ∧
    (∀ err, text e = .error err ↔
      ∃ before op later, e.operators = before ++ op :: later ∧
        (∀ o ∈ before, o ∈ supported) ∧ op ∉ supported ∧ err = .unsupportedOperation op) ∧
    ((∃ shader, fragment e = .ok shader) ↔ ∃ shader, text e = .ok shader) ∧
    (∀ err, fragment e = .error err ↔ text e = .error err) ∧
    ∀ shader, fragment e = .ok shader →
      ∃ body, text (e.rename fun x => if x = "z" then x else "u_" ++ x) = .ok body ∧
        shader =
          preamble ++ fill expressionHole body (uniforms e) ++ middle ++ body ++ closing := by
  refine ⟨?_, fun err => ?_, ?_, fun err => ?_, ?_⟩
  · constructor
    · rintro ⟨err, herr⟩
      rcases emit_eq_error_iff.mp herr with ⟨op, hop, -⟩
      rcases rejected?_eq_some_iff.mp hop with ⟨before, later, heq, -, hnot⟩
      exact ⟨op, by simp [heq], hnot⟩
    · rintro ⟨op, hmem, hnot⟩
      rcases emit_cases id e with ⟨hnone, -⟩ | ⟨op', -, herr⟩
      · exact absurd (rejected?_eq_none_iff.mp hnone op hmem) hnot
      · exact ⟨_, herr⟩
  · rw [text, emit_eq_error_iff]
    constructor
    · rintro ⟨op, hop, rfl⟩
      rcases rejected?_eq_some_iff.mp hop with ⟨before, later, heq, hbefore, hnot⟩
      exact ⟨before, op, later, heq, hbefore, hnot, rfl⟩
    · rintro ⟨before, op, later, heq, hbefore, hnot, rfl⟩
      exact ⟨op, rejected?_eq_some_iff.mpr ⟨before, later, heq, hbefore, hnot⟩, rfl⟩
  · rw [exists_fragment_iff]
    exact exists_emit_iff.symm
  · rw [fragment_eq_error_iff, emit_eq_error_iff]
    exact emit_eq_error_iff.symm
  · intro shader hshader
    rcases ok_and_ok_of_bind hshader with ⟨body, hbody, -⟩
    refine ⟨body, (emit_rename id spelling e).trans hbody, ?_⟩
    rw [fragment_of_emit hbody] at hshader
    exact (Except.ok.inj hshader).symm

/-- Of a quotient with a power on its left, the power is reported. A difference is written with
    the names of its uniforms. -/
theorem text_rejects_power :
    let e : Expr := .operation (.arith .div)
      (.operation (.arith .pow) (.name "a") (.name "z")) (.name "b")
    text e = .error (.unsupportedOperation (.arith .pow)) ∧
    fragment e = .error (.unsupportedOperation (.arith .pow)) ∧
    ∃ shader, fragment (.operation (.arith .sub) (.name "a") (.name "z")) = .ok shader ∧
      shader = preamble ++ fill expressionHole "(u_a-z)" "uniform vec2 u_a;\n" ++ middle ++
        "(u_a-z)" ++ closing := by
  intro e
  rcases text_rejects e with ⟨-, herror, -, hsame, -⟩
  have htext : text e = .error (.unsupportedOperation (.arith .pow)) :=
    (herror _).mpr ⟨[], _, [.arith .div], rfl, by simp, by decide, rfl⟩
  let d : Expr := .operation (.arith .sub) (.name "a") (.name "z")
  rcases text_rejects d with ⟨-, -, hboth, -, hshader⟩
  rcases hboth.mpr ⟨_, rfl⟩ with ⟨shader, hfragment⟩
  rcases hshader shader hfragment with ⟨body, hbody, heq⟩
  cases hbody
  exact ⟨htext, (hsame _).mpr htext, shader, hfragment, heq⟩

end Shader

end ZPlane
