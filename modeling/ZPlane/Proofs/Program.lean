import ZPlane.Program
import ZPlane.Proofs.Decimal.ReadBack
import ZPlane.Proofs.Names
import ZPlane.Proofs.Parser.Language

/-!
# The Trees of Texts

A tree that was read from a text is a derived one. So an assignment stands at its root or
nowhere, with a bare name on its left and no assignment on its right. The evaluator checks
for other shapes, since trees are also built by hand, but no text has one.

Literals and names are what their tokens are. A numeral has no sign, and a name is made of
letters.

## Main definitions

* `Expr.Written`: The literals and names that can be read from a text.

## Theorems

* `parse_eq_ok_iff`: Which tree a text denotes.
* `parse_error_cases`: At which stage a text fails.
* `exists_of_parse`: A text denotes a tree that the grammar derives from proper tokens.
* `assignFree_or_assign_of_parse`: A text is an expression without assignments, or one
  assignment of such an expression to a name.
* `Expr.written_of_parse`: The tree of a text has literals and names that can be read.
-/

namespace ZPlane

open Grammar

/-- A text denotes a tree exactly when the grammar derives it from the tokens, and the limits
    of the language are kept. -/
theorem parse_eq_ok_iff {text : String} {e : Expr} :
    parse text = .ok e ↔ ∃ tokens, Token.scan text = .ok tokens ∧
      Derives .assignment (Token.word tokens) e ∧ e.BareTargets ∧ e.size ≤ 512 ∧
        NestedWithin 128 0 (Token.word tokens) := by
  have htree {tokens : List Token} (hscan : Token.scan text = .ok tokens) :=
    (Expr.ofTokens_eq_ok_iff hscan (e := e)).symm
  unfold parse
  rcases hscan : Token.scan text with err | tokens
  · simp
  · simp only [Except.ok.injEq, exists_eq_left', htree hscan]
    cases Expr.ofTokens tokens <;> simp [Except.mapError]

/-- A text fails in scanning, or its tokens fail in parsing. -/
theorem parse_error_cases {text : String} {err : Error} (h : parse text = .error err) :
    (∃ e, Token.scan text = .error e ∧ err = .scan e) ∨
      ∃ tokens e, Token.scan text = .ok tokens ∧ Expr.ofTokens tokens = .error e ∧
        err = .parse e := by
  unfold parse at h
  rcases hscan : Token.scan text with e | tokens
  · rw [hscan] at h
    cases h
    exact .inl ⟨e, rfl, rfl⟩
  rw [hscan] at h
  dsimp only at h
  rcases htree : Expr.ofTokens tokens with e | e
  · rw [htree] at h
    cases h
    exact .inr ⟨tokens, e, rfl, htree, rfl⟩
  · rw [htree] at h
    cases h

/-- A text denotes a tree that the grammar derives from proper tokens. -/
theorem exists_of_parse {text : String} {e : Expr} (h : parse text = .ok e) :
    ∃ ks, Derives .assignment ks e ∧ e.BareTargets ∧ ∀ k ∈ ks, k.Proper := by
  rcases parse_eq_ok_iff.mp h with ⟨tokens, hscan, hderives, hbare, -⟩
  rcases Token.exists_of_scan hscan with ⟨us, last, rfl, hlast, hus, hword⟩
  refine ⟨_, hderives, hbare, ?_⟩
  rw [hword]
  intro k hk
  rcases List.mem_map.mp hk with ⟨u, hu, rfl⟩
  exact hus u hu

/-- A text is an expression without assignments, or one assignment of such an expression
    to a name. -/
theorem assignFree_or_assign_of_parse {text : String} {e : Expr} (h : parse text = .ok e) :
    e.AssignFree ∨ ∃ x r, e = .operation .assign (.name x) r ∧ r.AssignFree := by
  rcases exists_of_parse h with ⟨ks, hderives, hbare, -⟩
  rcases hderives.assignment_cases with hsum | ⟨ls, rs, l, r, rfl, rfl, -, hr⟩
  · exact .inl (hsum.assignFree (by simp))
  · rcases hbare.1 with ⟨x, rfl⟩
    exact .inr ⟨x, r, rfl, hr.assignFree (by simp)⟩

namespace Expr

/-- Literals are numbers without a minus sign, and names are made of letters. -/
def Written : Expr → Prop
  | .literal z => Unsigned z.re ∧ Unsigned z.im
  | .name x => x.toList ≠ [] ∧ ∀ c ∈ x.toList, c.isAlpha = true
  | .operation _ l r => l.Written ∧ r.Written

theorem Written.name {e : Expr} (h : e.Written) :
    ∀ x ∈ e.leaves, x.toList ≠ [] ∧ ∀ c ∈ x.toList, c.isAlpha = true := by
  induction e with
  | literal z => exact fun x hx => absurd hx List.not_mem_nil
  | name x => exact List.forall_mem_singleton.mpr h
  | operation op l r ihl ihr => exact List.forall_mem_append.mpr ⟨ihl h.1, ihr h.2⟩

theorem unsigned_zero : Unsigned 0 :=
  .inl rfl

theorem written_of_derives {rule : Rule} {ks : List Token.Kind} {e : Expr}
    (h : Derives rule ks e) (hks : ∀ k ∈ ks, k.Proper) : e.Written := by
  induction h with
  | tighter _ ih => exact ih hks
  | assign _ _ ihl ihr =>
    simp only [List.forall_mem_append, List.forall_mem_cons] at hks
    exact ⟨ihl hks.1, ihr hks.2.2⟩
  | positive _ ih => exact ih (List.forall_mem_cons.mp hks).2
  | negative _ ih =>
    exact ⟨⟨unsigned_zero, unsigned_zero⟩, ih (List.forall_mem_cons.mp hks).2⟩
  | binary _ _ _ ihl ihr =>
    simp only [List.forall_mem_append, List.forall_mem_cons] at hks
    exact ⟨ihl hks.1, ihr hks.2.2⟩
  | juxtaposed _ _ _ ihl ihr =>
    rw [List.forall_mem_append] at hks
    exact ⟨ihl hks.1, ihr hks.2⟩
  | number x =>
    -- A number token is the finite value of a numeral, and no numeral has a sign.
    rcases List.forall_mem_singleton.mp hks with ⟨hfinite, numeral, rfl⟩
    exact ⟨Decimal.unsigned_toFloat hfinite, unsigned_zero⟩
  | call _ _ ihf ihe =>
    simp only [List.forall_mem_append, List.forall_mem_cons] at hks
    exact ⟨ihf hks.1, ihe hks.2.2.1⟩
  | name x =>
    have hx : (Token.Kind.identifier x).Proper := hks _ List.mem_cons_self
    exact hx
  | group _ ih =>
    simp only [List.forall_mem_append, List.forall_mem_cons] at hks
    exact ih hks.2.1

/-- The tree of a text has literals and names that can be read. -/
theorem written_of_parse {text : String} {e : Expr} (h : parse text = .ok e) : e.Written := by
  rcases exists_of_parse h with ⟨ks, hderives, -, hks⟩
  exact written_of_derives hderives hks

end Expr

end ZPlane
