import ZPlane.Proofs.Shader.Agreement
import ZPlane.Proofs.Shader.Closed
import ZPlane.Proofs.Shader.Rejection

/-!
# What Is Put into the Template Stays as It Is

A fragment shader is made by two replacements, and the second goes over what the first has put
in. That does no harm unless a name holds the hole for the expression. A hole in the
declarations would have to lie within one name: it has none of the characters that stand around
a name there, which are an underscore and a semicolon, and no line feed. What is left to exclude
is a name that brings the hole along, and an expression that is built by hand can have one.

An expression that was read from a text cannot, since its names are letters. Nothing in it has a
brace. The template has some, but no two in a row once its holes are filled.

## Theorems

* `Expr.isPolynomial_iff`: Sums, differences and products are the operators that have text.
* `Shader.template_eq_iff`: Each hole cuts the template in one way.
* `Shader.expressionHole_not_infix_uniforms`: The declarations bring no hole along.
* `Shader.exists_fragment_eq`: The fragment shader of a polynomial whose names bring none along.
* `Shader.brace_not_mem_emit`: What is written for a text has no braces.
* `Shader.fragment_verbatim`: Both holes are filled once, with what was put in for them.
-/

namespace ZPlane

/-- An expression is a polynomial where every operator of it has text. -/
theorem Expr.isPolynomial_iff {e : Expr} :
    e.IsPolynomial ↔ ∀ op ∈ e.operators, op ∈ Shader.supported := by
  induction e with
  | literal z => simp [IsPolynomial, operators]
  | name x => simp [IsPolynomial, operators]
  | operation op l r ihl ihr =>
    rw [IsPolynomial, operators, List.forall_mem_append, List.forall_mem_append,
      List.forall_mem_singleton, ihl, ihr, and_comm]
    simp [Shader.supported]

namespace Shading

theorem brace_not_mem_takeLiteral (marked : Bool) (cs : List Char) :
    '\x7b' ∉ (takeLiteral marked cs).1 := by
  induction cs generalizing marked with
  | nil => exact List.not_mem_nil
  | cons c cs ih =>
    unfold takeLiteral
    split
    · next htaken =>
      rw [List.mem_cons, not_or]
      refine ⟨?_, ih _⟩
      rintro rfl
      cases marked <;> cases htaken
    · exact List.not_mem_nil

/-- A literal takes all of its characters, so a brace is not among them. -/
theorem IsLiteral.brace_not_mem {cs : List Char} {x : Float} (h : IsLiteral cs x) :
    '\x7b' ∉ cs := by
  have htaken := h.taken [] (by simp [Follows])
  have hnot := brace_not_mem_takeLiteral false (cs ++ [])
  rwa [htaken] at hnot

end Shading

namespace Shader

open Text Shading

section Template

/-- A hole that occurs at one place cuts a text in one way. -/
theorem append_eq_append_iff_of_once {hole a b x y : String}
    (honce : ∀ s ∈ (a ++ hole ++ b).toList.tails,
      hole.toList <+: s → s = hole.toList ++ b.toList) :
    a ++ hole ++ b = x ++ hole ++ y ↔ x = a ∧ y = b := by
  constructor
  · intro h
    have hlists := congrArg String.toList h
    simp only [String.toList_append, List.append_assoc] at hlists honce
    have hmem : hole.toList ++ y.toList ∈ (a.toList ++ (hole.toList ++ b.toList)).tails := by
      rw [List.mem_tails, hlists]
      exact List.suffix_append x.toList (hole.toList ++ y.toList)
    have hrest := honce _ hmem (List.prefix_append hole.toList y.toList)
    rw [hrest] at hlists
    exact ⟨String.toList_injective (List.append_cancel_right hlists).symm,
      String.toList_injective (List.append_cancel_left hrest)⟩
  · rintro ⟨rfl, rfl⟩
    rfl

/-- Each of the holes cuts the template in one way. -/
theorem template_eq_iff {a b : String} :
    (template = a ++ uniformsHole ++ b ↔
      a = preamble ∧ b = middle ++ expressionHole ++ closing) ∧
    (template = a ++ expressionHole ++ b ↔
      a = preamble ++ uniformsHole ++ middle ∧ b = closing) := by
  have hfirst : template = preamble ++ uniformsHole ++ (middle ++ expressionHole ++ closing) := by
    simp only [template, String.append_assoc]
  constructor
  · rw [hfirst]
    apply append_eq_append_iff_of_once
    unfold preamble uniformsHole middle expressionHole closing
    simp only [String.toList_append]
    repeat rw [String.toList_ofList]
    decide +kernel
  · apply append_eq_append_iff_of_once
    unfold preamble uniformsHole middle expressionHole closing
    simp only [String.toList_append]
    repeat rw [String.toList_ofList]
    decide +kernel

/-- The template between its holes starts and ends with white space, and has no two braces in a
    row. -/
theorem exists_middle :
    ∃ m, middle.toList = '\n' :: (m ++ [' ']) ∧ ¬['\x7b', '\x7b'] <:+: m := by
  refine ⟨(middle.toList.drop 1).dropLast, ?_⟩
  unfold middle
  simp only [String.toList_append]
  repeat rw [String.toList_ofList]
  decide +kernel

end Template

section Declarations

/-- A hole in a declaration and what follows it lies in the name or in what follows. -/
theorem expressionHole_infix_declaration {x : String} {rest : List Char} (hx : x ≠ coordinate)
    (h : expressionHole.toList <:+: (declaration x).toList ++ rest) :
    expressionHole.toList <:+: x.toList ∨ expressionHole.toList <:+: rest := by
  have htext : (declaration x).toList ++ rest =
      "uniform vec2 u".toList ++ '_' :: (x.toList ++ ';' :: ([] ++ '\n' :: rest)) := by
    simp [declaration, toList_spelling_of_ne hx]
  have hne : expressionHole.toList ≠ [] := by simp [expressionHole]
  rw [htext, infix_append_cons_iff hne (by decide), infix_append_cons_iff hne (by decide),
    infix_append_cons_iff hne (by decide)] at h
  rcases h with h | h | h | h
  · exact absurd h (by decide)
  · exact .inl h
  · exact absurd h (by decide)
  · exact .inr h

theorem expressionHole_not_infix_declarations {xs : List String}
    (h : ∀ x ∈ xs, x ≠ coordinate ∧ ¬expressionHole.toList <:+: x.toList) :
    ¬expressionHole.toList <:+: xs.flatMap fun x => (declaration x).toList := by
  induction xs with
  | nil => decide
  | cons x xs ih =>
    rw [List.forall_mem_cons] at h
    intro hhole
    rcases expressionHole_infix_declaration h.1.1 hhole with hname | hrest
    · exact h.1.2 hname
    · exact ih h.2 hrest

/-- The declarations bring no hole along where the names do not. -/
theorem expressionHole_not_infix_uniforms {e : Expr}
    (h : ∀ x ∈ e.names, ¬expressionHole.toList <:+: x.toList) :
    ¬expressionHole.toList <:+: (uniforms e).toList := by
  rw [toList_uniforms]
  apply expressionHole_not_infix_declarations
  intro x hx
  rw [List.mem_filter, decide_eq_true_eq] at hx
  exact ⟨hx.2, h x hx.1⟩

/-- A hole has braces, and a name that was read has letters only. -/
theorem expressionHole_not_infix_name {e : Expr} (hwritten : e.Written) :
    ∀ x ∈ e.names, ¬expressionHole.toList <:+: x.toList := by
  intro x hx hhole
  have hletters := (hwritten.name x (Expr.mem_names_iff.mp hx)).2
  cases hletters '\x7b' (hhole.mem (by decide))

/-- A polynomial has a fragment shader, with the declarations and the expression as they are where
    the names bring no hole along. -/
theorem exists_fragment_eq {e : Expr} (hpoly : e.IsPolynomial)
    (hnames : ∀ x ∈ e.names, ¬expressionHole.toList <:+: x.toList) :
    ∃ body, emit spelling e = .ok body ∧
      fragment e = .ok (preamble ++ uniforms e ++ middle ++ body ++ closing) := by
  have hnone := rejected?_eq_none_iff.mpr (Expr.isPolynomial_iff.mp hpoly)
  rcases exists_emit_iff.mpr hnone with ⟨body, hbody⟩
  have hnowhere := startsNowhere_of_not_infix (expressionHole_not_infix_uniforms hnames)
  refine ⟨body, hbody, ?_⟩
  rw [fragment_of_emit hbody, fill_eq_self hnowhere]

end Declarations

section Braces

theorem brace_not_mem_product {a b : String} (ha : '\x7b' ∉ a.toList) (hb : '\x7b' ∉ b.toList) :
    '\x7b' ∉ (product a b).toList := by
  unfold product
  -- Without the operands, what is left is the fixed part of the formula.
  simp only [String.toList_append, List.mem_append, ha, hb, or_false]
  decide +kernel

/-- What is written for an expression of a text has no braces. -/
theorem brace_not_mem_emit {e : Expr} {text : String} (hwritten : e.Written)
    (h : emit spelling e = .ok text) : '\x7b' ∉ text.toList := by
  induction e generalizing text with
  | literal z =>
    cases h
    have hre := (isLiteral_write hwritten.1).brace_not_mem
    have him := (isLiteral_write hwritten.2).brace_not_mem
    simp [literal, hre, him]
  | name x =>
    cases h
    intro hmem
    cases isWordChar_of_mem_spelling hwritten.2 _ hmem
  | operation op l r ihl ihr =>
    rcases ok_and_ok_of_bind h with ⟨a, ha, h₁⟩
    rcases ok_and_ok_of_bind h₁ with ⟨b, hb, h₂⟩
    have hl := ihl hwritten.1 ha
    have hr := ihr hwritten.2 hb
    rcases operation_eq_ok h₂ with htext | htext | htext
    · rw [htext]
      simp [sum, hl, hr]
    · rw [htext]
      simp [sum, hl, hr]
    · rw [htext]
      exact brace_not_mem_product hl hr

/-- No two braces in a row are left in the shader of an expression of a text. -/
theorem braces_not_infix_shader {e : Expr} {body : String} (hwritten : e.Written)
    (hbody : emit spelling e = .ok body) :
    ¬['\x7b', '\x7b'] <:+: (preamble ++ uniforms e ++ middle ++ body ++ closing).toList := by
  have hplain {cs : List Char} (h : '\x7b' ∉ cs) : ¬['\x7b', '\x7b'] <:+: cs :=
    fun hbraces => h (hbraces.mem List.mem_cons_self)
  have hfront : '\x7b' ∉ preamble.toList ++ (uniforms e).toList := by
    simp [brace_not_mem_preamble, brace_not_mem_uniforms hwritten]
  have hback : '\x7b' ∉ body.toList ++ closing.toList := by
    simp [brace_not_mem_emit hwritten hbody, brace_not_mem_closing]
  rcases exists_middle with ⟨m, hmiddle, hm⟩
  have htext : (preamble ++ uniforms e ++ middle ++ body ++ closing).toList =
      (preamble.toList ++ (uniforms e).toList) ++
        '\n' :: (m ++ ' ' :: (body.toList ++ closing.toList)) := by
    simp [hmiddle]
  -- White space keeps the template apart from what was put in.
  rw [htext, infix_append_cons_iff (by simp) (by decide),
    infix_append_cons_iff (by simp) (by decide)]
  rintro (h | h | h)
  · exact hplain hfront h
  · exact hm h
  · exact hplain hback h

end Braces

/-- A fragment shader is the template cut at its holes, with the declarations and the expression
    put in as they are, once each. Each hole cuts the template in one way. This holds of every
    expression of sums, differences and products in which no name has the hole for the expression
    in it. It holds of those that were read from a text, and no two braces in a row are left in
    their shaders. -/
theorem fragment_verbatim :
    (∀ a b, template = a ++ uniformsHole ++ b ↔
      a = preamble ∧ b = middle ++ expressionHole ++ closing) ∧
    (∀ a b, template = a ++ expressionHole ++ b ↔
      a = preamble ++ uniformsHole ++ middle ∧ b = closing) ∧
    (∀ e : Expr, e.IsPolynomial → (∀ x ∈ e.names, ¬expressionHole.toList <:+: x.toList) →
      ∃ body, emit spelling e = .ok body ∧
        fragment e = .ok (preamble ++ uniforms e ++ middle ++ body ++ closing)) ∧
    ∀ source e, parse source = .ok e → e.IsPolynomial →
      ∃ body shader, emit spelling e = .ok body ∧ fragment e = .ok shader ∧
        shader = preamble ++ uniforms e ++ middle ++ body ++ closing ∧
        ¬['\x7b', '\x7b'] <:+: shader.toList := by
  refine ⟨fun a b => template_eq_iff.1, fun a b => template_eq_iff.2, ?_, ?_⟩
  · intro e hpoly hnames
    exact exists_fragment_eq hpoly hnames
  · intro source e hparse hpoly
    have hwritten := Expr.written_of_parse hparse
    rcases exists_fragment_eq hpoly (expressionHole_not_infix_name hwritten) with
      ⟨body, hbody, hfragment⟩
    exact ⟨body, _, hbody, hfragment, rfl, braces_not_infix_shader hwritten hbody⟩

/-- Names that are built by hand may have holes in them, as long as it is not the one for the
    expression: here a name is the hole for the declarations, and another one the start of that
    for the expression. A difference is read from a text. -/
theorem fragment_verbatim_holes :
    let e : Expr := .operation (.arith .mul) (.name "\x7b\x7buniforms\x7d\x7d")
      (.name "\x7b\x7bexpression")
    (∃ body, emit spelling e = .ok body ∧
      fragment e = .ok (preamble ++
        "uniform vec2 u_\x7b\x7buniforms\x7d\x7d;\nuniform vec2 u_\x7b\x7bexpression;\n" ++
        middle ++ body ++ closing)) ∧
    ∃ shader, fragment (.operation (.arith .sub) (.name "z") (.name "a")) = .ok shader ∧
      shader = preamble ++ "uniform vec2 u_a;\n" ++ middle ++ "(z-u_a)" ++ closing ∧
      ¬['\x7b', '\x7b'] <:+: shader.toList := by
  intro e
  rcases fragment_verbatim with ⟨-, -, hbuilt, hread⟩
  constructor
  · have hpoly : e.IsPolynomial := ⟨.inr (.inr rfl), trivial, trivial⟩
    exact hbuilt e hpoly (by decide)
  · have hparse : parse "z-a" = .ok (.operation (.arith .sub) (.name "z") (.name "a")) := by cbv
    have hpoly : (Expr.operation (.arith .sub) (.name "z") (.name "a")).IsPolynomial :=
      ⟨.inr (.inl rfl), trivial, trivial⟩
    rcases hread _ _ hparse hpoly with ⟨body, shader, hbody, hfragment, heq, hbraces⟩
    cases hbody
    exact ⟨shader, hfragment, heq, hbraces⟩

end Shader

end ZPlane
