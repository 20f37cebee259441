import ZPlane.Proofs.Parser.Grouping
import ZPlane.Proofs.Shader.Agreement
import ZPlane.Proofs.Shader.Verbatim

/-!
# How Shader Text Grows

The shading language has no complex product, so a product holds each of its operands four
times. The text of a product of products holds the innermost operands sixteen times, and so
on: along a path from the root to a leaf, every product makes four times as much of what is
below it.

The limits of the language keep an expression small, but not what is written for it. A text
of 1025 characters stays within them and has more than `4 ^ 512` characters of shader text.
Whatever the limits are, what they allow grows exponentially with the number of operations,
so no polynomial in the limits and the length of the text is a bound.

## Main definitions

* `Expr.productDepth`: The largest number of products on a path from the root to a leaf.
* `Shader.chain`: The letter `z` again and again, with blanks between.

## Theorems

* `Shader.length_sum`, `Shader.length_product`: The length of what is written for an operation.
* `Shader.pow_productDepth_le`: Every product on a path makes four times as much.
* `Shader.ofTokensWithin_chain`: A chain is read within limits that allow its operations.
* `Shader.text_grows`: Shader text grows exponentially, and the limits do not prevent it.
-/

namespace ZPlane

open Grammar Token Polynomial

/-- The largest number of products on a path from the root to a leaf. -/
def Expr.productDepth : Expr → Nat
  | .literal _ => 0
  | .name _ => 0
  | .operation op l r =>
    max l.productDepth r.productDepth + if op = .arith .mul then 1 else 0

namespace Shader

section Lengths

variable {l r : Expr} {a b : String}

theorem length_sum (symbol a b : String) :
    (sum symbol a b).length = a.length + b.length + symbol.length + 2 := by
  unfold sum
  simp only [String.length_append]
  have hopen : "(".length = 1 := rfl
  have hclose : ")".length = 1 := rfl
  omega

theorem length_product (a b : String) :
    (product a b).length = 4 * a.length + 4 * b.length + 46 := by
  unfold product
  simp only [String.length_append]
  have hparts : "vec2((".length = 6 ∧ ").x*(".length = 5 ∧ ").x-(".length = 5 ∧
      ").y*(".length = 5 ∧ ").y, (".length = 6 ∧ ").y+(".length = 5 ∧ ").y)".length = 4 := by
    decide
  omega

theorem text_add (ha : text l = .ok a) (hb : text r = .ok b) :
    text (.operation (.arith .add) l r) = .ok (sum "+" a b) :=
  emit_operation ha hb

theorem text_sub (ha : text l = .ok a) (hb : text r = .ok b) :
    text (.operation (.arith .sub) l r) = .ok (sum "-" a b) :=
  emit_operation ha hb

theorem text_mul (ha : text l = .ok a) (hb : text r = .ok b) :
    text (.operation (.arith .mul) l r) = .ok (product a b) :=
  emit_operation ha hb

/-- Every product on a path makes four times as much of what is below it. -/
theorem pow_productDepth_le {e : Expr} (hpoly : e.IsPolynomial) (hnames : ∀ x ∈ e.leaves, x ≠ "") :
    ∃ s, text e = .ok s ∧ 4 ^ e.productDepth ≤ s.length := by
  induction e with
  | literal z =>
    refine ⟨_, rfl, ?_⟩
    unfold literal
    simp only [String.length_append]
    have hvector : "vec2(".length = 5 := rfl
    rw [Expr.productDepth, Nat.pow_zero]
    omega
  | name x =>
    refine ⟨x, rfl, ?_⟩
    have hx : x.length ≠ 0 := fun h => hnames x List.mem_cons_self (String.length_eq_zero_iff.mp h)
    rw [Expr.productDepth, Nat.pow_zero]
    omega
  | operation op l r ihl ihr =>
    rcases hpoly with ⟨hop, hl, hr⟩
    rw [Expr.leaves, List.forall_mem_append] at hnames
    rcases ihl hl hnames.1 with ⟨a, ha, hla⟩
    rcases ihr hr hnames.2 with ⟨b, hb, hrb⟩
    -- The deeper operand alone is long enough.
    have hdeeper : 4 ^ max l.productDepth r.productDepth ≤ a.length + b.length := by
      rcases le_total l.productDepth r.productDepth with hle | hle
      · rw [max_eq_right hle]
        omega
      · rw [max_eq_left hle]
        omega
    rcases hop with rfl | rfl | rfl
    · refine ⟨_, text_add ha hb, ?_⟩
      rw [length_sum, Expr.productDepth, if_neg (by simp), Nat.add_zero]
      omega
    · refine ⟨_, text_sub ha hb, ?_⟩
      rw [length_sum, Expr.productDepth, if_neg (by simp), Nat.add_zero]
      omega
    · refine ⟨_, text_mul ha hb, ?_⟩
      rw [length_product, Expr.productDepth, if_pos rfl, Nat.pow_succ]
      omega

end Lengths

section Chains

/-- The letter `z` with `n` more of them behind it, each after a blank. -/
def chain (n : Nat) : String :=
  " ".intercalate (List.replicate (n + 1) "z")

/-- The product that a chain denotes. -/
def chainTree : Nat → Expr
  | 0 => .name "z"
  | n + 1 => .operation (.arith .mul) (chainTree n) (.name "z")

/-- The tokens of a chain. -/
def chainWord (n : Nat) : List Kind :=
  List.replicate (n + 1) (.identifier "z")

theorem chain_zero : chain 0 = "z" :=
  String.intercalate_singleton

theorem chain_succ (n : Nat) : chain (n + 1) = chain n ++ " z" := by
  unfold chain
  rw [List.replicate_succ' (n := n + 1), String.intercalate_append_of_ne_nil (by simp) (by simp),
    String.intercalate_singleton, String.append_assoc]
  rfl

theorem length_chain (n : Nat) : (chain n).length = 2 * n + 1 := by
  induction n with
  | zero =>
    rw [chain_zero]
    rfl
  | succ n ih =>
    have hfactor : " z".length = 2 := rfl
    rw [chain_succ, String.length_append, ih]
    omega

theorem chainWord_succ (n : Nat) : chainWord (n + 1) = chainWord n ++ [.identifier "z"] :=
  List.replicate_succ'

theorem spells_chain (n : Nat) : Spells (chain n).toList (chainWord n) := by
  have hname : Spells "z".toList [.identifier "z"] := .name (by simp) (by simp)
  induction n with
  | zero =>
    rw [chain_zero]
    exact hname
  | succ n ih =>
    have hbreaks : Breaks (' ' :: "z".toList) := by
      rintro c ⟨⟩
      decide
    rw [chain_succ, String.toList_append, chainWord_succ]
    exact ih.append hbreaks (hname.blank (c := ' ') rfl)

theorem derives_chain (n : Nat) : Derives .juxtaposition (chainWord n) (chainTree n) := by
  have hname (rule : Rule) : Derives rule [.identifier "z"] (.name "z") :=
    (Derives.name "z").loosen (by cases rule <;> decide)
  induction n with
  | zero => exact hname _
  | succ n ih =>
    rw [chainWord_succ]
    exact .juxtaposed trivial ih (hname .power)

theorem size_chainTree (n : Nat) : (chainTree n).size = n := by
  induction n with
  | zero => rfl
  | succ n ih => rw [chainTree, Expr.size, ih, Expr.size]

theorem productDepth_chainTree (n : Nat) : (chainTree n).productDepth = n := by
  induction n with
  | zero => rfl
  | succ n ih => rw [chainTree, Expr.productDepth, ih, Expr.productDepth, if_pos rfl, Nat.max_zero]

/-- A chain opens no parenthesis. -/
theorem nestedWithin_chainWord (bound n : Nat) : NestedWithin bound 0 (chainWord n) := by
  have hletters (k : Nat) : NestedWithin bound 0 (List.replicate k (.identifier "z")) := by
    induction k with
    | zero => exact nestedWithin_nil_iff.mpr (Nat.zero_le _)
    | succ k ih => exact nestedWithin_cons_iff.mpr ⟨Nat.zero_le _, ih⟩
  exact hletters (n + 1)

/-- A chain is read within limits that allow its operations. -/
theorem ofTokensWithin_chain {limits : Parser.Limits} {n : Nat} (h : n ≤ limits.operations) :
    ∃ tokens, scan (chain n) = .ok tokens ∧
      Expr.ofTokensWithin limits tokens = .ok (chainTree n) := by
  rcases spells_iff_scan.mp (spells_chain n) with ⟨tokens, hscan, hword⟩
  rcases exists_of_scan hscan with ⟨us, last, rfl, hlast, hus, hkinds⟩
  refine ⟨_, hscan, ?_⟩
  have hderives := derives_chain n
  rw [Expr.ofTokensWithin_eq_ok_iff (fun u hu => (hus u hu).ne_endOfText) hlast, ← hkinds, hword]
  refine ⟨hderives.loosen (by decide), (hderives.assignFree (by simp)).bareTargets, ?_, ?_⟩
  · rw [size_chainTree]
    exact h
  · exact nestedWithin_chainWord _ n

theorem parse_chain {n : Nat} (h : n ≤ 512) : parse (chain n) = .ok (chainTree n) := by
  rcases @ofTokensWithin_chain .standard n h with ⟨tokens, hscan, htree⟩
  unfold parse Expr.ofTokens
  rw [hscan]
  simp only [htree]
  rfl

/-- The shader text of a chain is exponential in its length. -/
theorem exists_text_chain (n : Nat) : ∃ s, text (chainTree n) = .ok s ∧ 4 ^ n ≤ s.length := by
  have hpoly : (chainTree n).IsPolynomial := by
    induction n with
    | zero => trivial
    | succ n ih => exact ⟨.inr (.inr rfl), ih, trivial⟩
  have hnames : ∀ x ∈ (chainTree n).leaves, x ≠ "" := by
    clear hpoly
    induction n with
    | zero => simp [chainTree, Expr.leaves]
    | succ n ih => simpa [chainTree, Expr.leaves, or_imp, forall_and] using ih
  have hlength := pow_productDepth_le hpoly hnames
  rwa [productDepth_chainTree] at hlength

end Chains

/-- Powers of four outgrow every polynomial. -/
theorem exists_eval_lt_pow (p : ℕ[X]) : ∃ n, p.eval n < 4 ^ n := by
  -- A polynomial is small against the exponential function, which is less than `4 ^ n`.
  have hsmall := (Polynomial.tendsto_div_exp_atTop (p.map (Nat.castRingHom ℝ))).comp
    tendsto_natCast_atTop_atTop
  rcases (hsmall.eventually_lt_const one_pos).exists with ⟨n, hn⟩
  refine ⟨n, ?_⟩
  have hexp : Real.exp n ≤ 4 ^ n := by
    rw [← Real.exp_one_pow]
    exact pow_le_pow_left₀ (Real.exp_pos 1).le (Real.exp_one_lt_d9.le.trans (by norm_num)) n
  have hlt : ((p.eval n : ℕ) : ℝ) < Real.exp n := by
    rw [Function.comp_apply, div_lt_one (Real.exp_pos _), Polynomial.eval_natCast_map] at hn
    exact hn
  exact_mod_cast hlt.trans_le hexp

/-- Shader text grows exponentially. An expression of sums, differences and products without
    empty names has text, four times as much for every product on a path from the root to a
    leaf. The length of the text of an operation follows from those of its operands. A chain of
    `n` factors more than one is read and written for all `n` that the language allows, and has
    `4 ^ n` characters of shader text. The limits on groups and operations therefore give no
    polynomial bound on what is written for the texts within them. -/
theorem text_grows :
    (∀ e : Expr, e.IsPolynomial → (∀ x ∈ e.leaves, x ≠ "") →
      ∃ s, text e = .ok s ∧ 4 ^ e.productDepth ≤ s.length) ∧
    (∀ l r a b, text l = .ok a → text r = .ok b →
      (∃ s, text (.operation (.arith .mul) l r) = .ok s ∧
        s.length = 4 * a.length + 4 * b.length + 46) ∧
      (∃ s, text (.operation (.arith .add) l r) = .ok s ∧ s.length = a.length + b.length + 3) ∧
      ∃ s, text (.operation (.arith .sub) l r) = .ok s ∧ s.length = a.length + b.length + 3) ∧
    (∀ n ≤ 512, (chain n).length = 2 * n + 1 ∧ ∃ e s, parse (chain n) = .ok e ∧
      text e = .ok s ∧ shaderText (chain n) = .ok s ∧ 4 ^ n ≤ s.length) ∧
    ∀ (p : ℕ[X]) (nesting : ℕ), ∃ operations source tokens e s, scan source = .ok tokens ∧
      Expr.ofTokensWithin ⟨nesting, operations⟩ tokens = .ok e ∧ text e = .ok s ∧
      p.eval (nesting + operations + source.length) < s.length := by
  refine ⟨fun e => pow_productDepth_le, ?_, ?_, ?_⟩
  · intro l r a b ha hb
    refine ⟨⟨_, text_mul ha hb, length_product a b⟩, ⟨_, text_add ha hb, ?_⟩,
      ⟨_, text_sub ha hb, ?_⟩⟩
    · exact length_sum "+" a b
    · exact length_sum "-" a b
  · intro n hn
    rcases exists_text_chain n with ⟨s, hs, hlength⟩
    refine ⟨length_chain n, _, s, parse_chain hn, hs, ?_, hlength⟩
    unfold shaderText emitShader
    rw [parse_chain hn]
    change (text (chainTree n)).mapError Error.shader = _
    rw [hs]
    rfl
  · intro p nesting
    -- In the number of operations, the length of a chain is a polynomial.
    let q : ℕ[X] := p.comp (C nesting + X + (2 * X + 1))
    rcases exists_eval_lt_pow q with ⟨n, hn⟩
    rcases exists_text_chain n with ⟨s, hs, hlength⟩
    rcases @ofTokensWithin_chain ⟨nesting, n⟩ n (Nat.le_refl n) with ⟨tokens, hscan, htree⟩
    refine ⟨n, chain n, tokens, chainTree n, s, hscan, htree, hs, ?_⟩
    have heval : q.eval n = p.eval (nesting + n + (chain n).length) := by
      rw [length_chain]
      simp [q]
    omega

/-- A product of a sum, a product of two names, and the longest chain that the language
    allows. -/
theorem text_grows_longest :
    (∃ e : Expr, e.IsPolynomial ∧ (∀ x ∈ e.leaves, x ≠ "") ∧ e.productDepth = 1 ∧
      ∃ s, text e = .ok s ∧ 4 ^ e.productDepth ≤ s.length) ∧
    (∃ s, text (.operation (.arith .mul) (.name "x") (.name "yy")) = .ok s ∧ s.length = 58) ∧
    (chain 512).length = 1025 ∧ ∃ e s, parse (chain 512) = .ok e ∧ text e = .ok s ∧
      shaderText (chain 512) = .ok s ∧ 4 ^ 512 ≤ s.length := by
  let e : Expr := .operation (.arith .mul)
    (.operation (.arith .add) (.name "x") (.literal .i)) (.name "y")
  have hpoly : e.IsPolynomial := ⟨by simp, ⟨by simp, trivial, trivial⟩, trivial⟩
  have hnames : ∀ x ∈ e.leaves, x ≠ "" := by simp [e, Expr.leaves]
  refine ⟨⟨e, hpoly, hnames, rfl, text_grows.1 e hpoly hnames⟩, ?_, text_grows.2.2.1 512 le_rfl⟩
  exact (text_grows.2.1 (.name "x") (.name "yy") "x" "yy" rfl rfl).1

end Shader

end ZPlane
