import ZPlane.Proofs.Evaluation.Meaning
import ZPlane.Proofs.Program
import ZPlane.Proofs.Shader.Rejection
import ZPlane.Proofs.Shader.Rules

/-!
# Shader Text Means What Evaluation Gives

An expression of sums, differences and products is evaluated here and written for the
shader, and both compute the same complex number to the last bit. The shader text is read
by the rules of its own language, where a product of two complex numbers is a vector of two
formulas. Those formulas are the ones of `Complex.mul`, up to the order of one product of
floats.

The text of every operation is a primary of the shading language: a name, a vector or
something in parentheses. That is why operands can be put into it without a look at what
they are.

## Main definitions

* `Expr.IsPolynomial`: All operators are sums, differences and products.
* `Environment.number?`: The number that a name is bound to.

## Theorems

* `Shader.isPrimary_sum`, `Shader.isPrimary_product`: What is written for an operation.
* `Shader.exists_text`: An expression has a value and a shader text that denotes it.
* `Shader.evaluate_text`: The shader text of a text denotes its value.
-/

namespace ZPlane

namespace Expr

/-- All operators are sums, differences and products. -/
def IsPolynomial : Expr → Prop
  | .literal _ => True
  | .name _ => True
  | .operation op l r =>
    (op = .arith .add ∨ op = .arith .sub ∨ op = .arith .mul) ∧ l.IsPolynomial ∧ r.IsPolynomial

end Expr

/-- The number that a name is bound to. -/
def Environment.number? (env : Environment) (x : String) : Option Complex :=
  match env.get? x with
  | some (.number z) => some z
  | _ => none

namespace Shader

open Shading

variable {names : String → Option Complex}

theorem isPrimary_literal {z : Complex} (hre : Unsigned z.re) (him : Unsigned z.im) :
    IsPrimary names (literal z).toList (.vec2 z.re z.im) := by
  have hvector : IsPrimary names _ _ :=
    isPrimary_vec2 (isLiteral_write hre).sum (isLiteral_write him).sum
  unfold literal
  simpa [String.toList_append] using hvector

/-- A sum or difference in parentheses. -/
theorem isPrimary_sum {a b symbol : String} {c : Char} {f : Float → Float → Float} {z w : Complex}
    (ha : IsPrimary names a.toList (.vec2 z.re z.im))
    (hb : IsPrimary names b.toList (.vec2 w.re w.im)) (hsymbol : symbol.toList = [c])
    (hc : c = '+' ∨ c = '-') (hf : sumOperator c = some f) :
    IsPrimary names (sum symbol a b).toList (.vec2 (f z.re w.re) (f z.im w.im)) := by
  have hsum := (ha.part.product.plus hb.part.product hc hf rfl).group
  unfold sum
  simpa [String.toList_append, hsymbol] using hsum

/-- A product, with each part by its formula. -/
theorem isPrimary_product {a b : String} {z w : Complex}
    (ha : IsPrimary names a.toList (.vec2 z.re z.im))
    (hb : IsPrimary names b.toList (.vec2 w.re w.im)) :
    IsPrimary names (product a b).toList
      (.vec2 (z.re * w.re - z.im * w.im) (z.re * w.im + w.re * z.im)) := by
  -- Each operand stands in parentheses wherever it is used.
  have ha := ha.part.product.sum.group
  have hb := hb.part.product.sum.group
  have hre := (ha.x.times hb.x rfl).plus (ha.y.times hb.y rfl) (.inr rfl) rfl rfl
  have him := (ha.x.times hb.y rfl).plus (hb.x.times ha.y rfl) (.inl rfl) rfl rfl
  have hvector := isPrimary_vec2 hre him
  unfold product
  simpa [String.toList_append] using hvector

/-- An expression of sums, differences and products over numbers has a value, and a shader
    text that denotes the same number. -/
theorem exists_text {e : Expr} {s : Workspace} (hpoly : e.IsPolynomial) (hwritten : e.Written)
    (hbound : ∀ x ∈ e.names, ∃ z, s.environment.get? x = some (.number z)) :
    ∃ z text, e.eval s = .ok (.number z) s ∧ emit id e = .ok text ∧
      IsPrimary s.environment.number? text.toList (.vec2 z.re z.im) := by
  induction e with
  | literal z => exact ⟨z, _, rfl, rfl, isPrimary_literal hwritten.1 hwritten.2⟩
  | name x =>
    rcases hbound x (by simp [Expr.names, Expr.addNames]) with ⟨z, hz⟩
    have hnumber : s.environment.number? x = some z := by
      rw [Environment.number?, hz]
    have hlookup : Eval.lookup x s = .ok (.number z) s := by
      rw [Eval.lookup_eq, hz]
    exact ⟨z, x, hlookup, rfl, isPrimary_name hwritten.1 hwritten.2 hnumber⟩
  | operation op l r ihl ihr =>
    rcases hpoly with ⟨hop, hlpoly, hrpoly⟩
    have hlbound := fun x hx => hbound x (Expr.mem_names_operation.mpr (.inl hx))
    have hrbound := fun x hx => hbound x (Expr.mem_names_operation.mpr (.inr hx))
    rcases ihl hlpoly hwritten.1 hlbound with ⟨z, a, hleval, ha, hla⟩
    rcases ihr hrpoly hwritten.2 hrbound with ⟨w, b, hreval, hb, hrb⟩
    rcases hop with rfl | rfl | rfl
    · exact ⟨z + w, _, Expr.eval_arith hleval hreval rfl, emit_operation ha hb,
        isPrimary_sum hla hrb rfl (.inl rfl) rfl⟩
    · exact ⟨z - w, _, Expr.eval_arith hleval hreval rfl, emit_operation ha hb,
        isPrimary_sum hla hrb rfl (.inr rfl) rfl⟩
    · refine ⟨z * w, _, Expr.eval_arith hleval hreval rfl, emit_operation ha hb, ?_⟩
      -- The shader has the factors of one product the other way round.
      have hproduct := isPrimary_product hla hrb
      rw [Packing.mul_comm w.re z.im] at hproduct
      exact hproduct

/-- The shader text of an expression denotes its value: where all operators are sums,
    differences and products and every name is bound to a number, evaluation succeeds and
    leaves the workspace as it was, the shader has a text, and that text, with each name
    standing for the vector of its number, is read whole, as a vector of the two parts of
    the value. -/
theorem evaluate_text {source : String} {e : Expr} {s : Workspace}
    (hparse : parse source = .ok e) (hpoly : e.IsPolynomial)
    (hbound : ∀ x ∈ e.names, ∃ z, s.environment.get? x = some (.number z)) :
    ∃ z glsl, e.eval s = .ok (.number z) s ∧ text e = .ok glsl ∧
      Shading.evaluate s.environment.number? glsl = some (.vec2 z.re z.im) := by
  rcases exists_text hpoly (Expr.written_of_parse hparse) hbound with
    ⟨z, glsl, heval, htext, hprimary⟩
  exact ⟨z, glsl, heval, htext, hprimary.part.product.sum.evaluate_eq⟩

/-- A literal, a product and a difference, with both names bound. -/
theorem evaluate_text_difference : ∃ e s, parse "2.5z - c" = .ok e ∧ e.IsPolynomial ∧
    (∀ x ∈ e.names, ∃ z, s.environment.get? x = some (.number z)) ∧
    ∃ z glsl, e.eval s = .ok (.number z) s ∧ text e = .ok glsl ∧
      Shading.evaluate s.environment.number? glsl = some (.vec2 z.re z.im) := by
  let factor : Float := Decimal.toFloat ⟨25, -1⟩
  let e : Expr := .operation (.arith .sub)
    (.operation (.arith .mul) (.literal (.ofReal factor)) (.name "z")) (.name "c")
  let s : Workspace := ⟨⟨[("z", .number .i), ("c", .number .one)], by decide⟩, 0, by
    simp [Environment.get?_eq_some_iff]⟩
  have hscan : Token.scan "2.5z - c" = .ok [⟨.number factor, "2.5", 1⟩, ⟨.identifier "z", "z", 4⟩,
      ⟨.minus, "-", 6⟩, ⟨.identifier "c", "c", 8⟩, ⟨.endOfText, "", 9⟩] := by
    have hfinite : factor.isFinite = true := by decide
    have hrest : Token.scanFrom 4 ['z', ' ', '-', ' ', 'c'] = .ok [⟨.identifier "z", "z", 4⟩,
        ⟨.minus, "-", 6⟩, ⟨.identifier "c", "c", 8⟩, ⟨.endOfText, "", 9⟩] := by
      cbv
    change Token.scanFrom 1 ['2', '.', '5', 'z', ' ', '-', ' ', 'c'] = _
    rw [Token.scanFrom, if_neg (by decide), if_neg (by decide), if_pos (by decide)]
    change (if factor.isFinite = true then (_ :: ·) <$> Token.scanFrom 4 _ else _) = _
    rw [if_pos hfinite]
    change (_ :: ·) <$> Token.scanFrom 4 ['z', ' ', '-', ' ', 'c'] = _
    rw [hrest]
    rfl
  have hparse : parse "2.5z - c" = .ok e := by
    unfold parse
    rw [hscan]
    rfl
  have hpoly : e.IsPolynomial :=
    ⟨.inr (.inl rfl), ⟨.inr (.inr rfl), trivial, trivial⟩, trivial⟩
  have hbound : ∀ x ∈ e.names, ∃ z, s.environment.get? x = some (.number z) := by
    intro x hx
    have hnames : e.names = ["z", "c"] := rfl
    rw [hnames] at hx
    rcases List.mem_cons.mp hx with rfl | hx
    · exact ⟨.i, rfl⟩
    · rw [List.mem_singleton.mp hx]
      exact ⟨.one, rfl⟩
  exact ⟨e, s, hparse, hpoly, hbound, evaluate_text hparse hpoly hbound⟩

end Shader

end ZPlane
