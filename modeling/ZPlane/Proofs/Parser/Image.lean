import ZPlane.Proofs.Parser.Grouping
import ZPlane.Proofs.Token.Numerals

/-!
# Which Trees Can Be Read

A tree that is read from a text has at most one assignment, at its root and to a name. Its
literals are finite, not negative and real, its names are made of letters, and it has no more
operations than the language allows.

These are all the conditions there are, as long as the tree is not too deep. `Expr.source`
writes a tree down with parentheses around every operand. The text is nested as deep as the
tree is, which the language allows for 128 operations in a row. Reading it gives the tree
back: no sign and no neighbour can get hold of what stands in parentheses.

A literal is written as its exact decimal. There is no way to write a zero with a minus sign,
so such a literal is read as the other zero, which is equal to it as a number.

## Main definitions

* `Expr.Readable`: What is true of every tree that is read from a text.
* `Expr.depth`: The number of operations on the longest path from the root to a leaf.
* `Expr.source`: A text for a tree.
* `Expr.unsigned`: The tree with the signs of its literals removed.

## Theorems

* `Expr.readable_of_parse`: A tree that is read from a text is readable.
* `Expr.spells_source`: What the text of a tree without assignments spells.
* `Expr.parse_source`: The text of a readable tree is read as that tree.
* `parse_image`: The readable trees are those that are read from texts.
-/

namespace ZPlane

open Grammar Token

namespace Expr

/-- The literals from left to right. -/
def literals : Expr → List Complex
  | .literal z => [z]
  | .name _ => []
  | .operation _ l r => l.literals ++ r.literals

/-- The number of operations on the longest path from the root to a leaf. -/
def depth : Expr → Nat
  | .literal _ => 0
  | .name _ => 0
  | .operation _ l r => max l.depth r.depth + 1

/-- What is true of every tree that is read from a text. -/
structure Readable (e : Expr) : Prop where
  assign : e.AssignFree ∨ ∃ x r, e = .operation .assign (.name x) r ∧ r.AssignFree
  literal : ∀ z ∈ e.literals, z.re.isFinite = true ∧ 0 ≤ z.re ∧ z.im = 0
  name : ∀ x ∈ e.leaves, x.toList ≠ [] ∧ ∀ c ∈ x.toList, c.isAlpha = true
  size : e.size ≤ 512

/-- A text for a tree, with every operand in parentheses. -/
def source : Expr → List Char
  | .literal z => (Numeral.ofFloat z.re).chars
  | .name x => x.toList
  | .operation (.arith a) l r => groupedChars l.source ++ a.symbol.toList ++ groupedChars r.source
  | .operation .assign l r => l.source ++ '=' :: r.source
  | .operation .call l r => groupedChars l.source ++ groupedChars r.source

/-- The tree with the signs of its literals removed. -/
def unsigned : Expr → Expr
  | .literal z => .literal ⟨z.re.abs, z.im⟩
  | .name x => .name x
  | .operation op l r => .operation op l.unsigned r.unsigned

theorem size_unsigned (e : Expr) : e.unsigned.size = e.size := by
  induction e with
  | literal z => rfl
  | name x => rfl
  | operation op l r ihl ihr => simp only [unsigned, size, ihl, ihr]

/-- Signs of zeros make no difference to numbers. -/
theorem beq_unsigned {e : Expr}
    (h : ∀ z ∈ e.literals, z.re.isFinite = true ∧ 0 ≤ z.re ∧ z.im = 0) :
    (e.unsigned == e) = true := by
  change e.unsigned.beq e = true
  induction e with
  | literal z =>
    rcases h z List.mem_cons_self with ⟨hfinite, hnonneg, him⟩
    -- Equality of numbers fails for what is no number, which a finite one is not.
    have hre : (z.re.abs == z.re) = true := by
      rcases unsigned_or_eq_of_nonneg hfinite hnonneg with hre | hre
      · rw [Decimal.abs_eq_self hre, Float.beq_self_iff]
        intro hnan
        rw [hnan] at hfinite
        cases hfinite
      · rw [hre]
        decide
    change (z.re.abs == z.re && z.im == z.im) = true
    rw [hre, him]
    decide
  | name x => exact beq_self_eq_true x
  | operation op l r ihl ihr =>
    rw [literals, List.forall_mem_append] at h
    simp only [unsigned, Expr.beq, beq_self_eq_true, ihl h.1, ihr h.2, Bool.and_self]

theorem unsigned_eq_self {e : Expr} (h : ∀ z ∈ e.literals, Unsigned z.re) : e.unsigned = e := by
  induction e with
  | literal z => rw [unsigned, Decimal.abs_eq_self (h z List.mem_cons_self)]
  | name x => rfl
  | operation op l r ihl ihr =>
    rw [literals, List.forall_mem_append] at h
    rw [unsigned, ihl h.1, ihr h.2]

/-- Literals are read as real numbers. -/
theorem im_eq_zero_of_derives {rule : Rule} {ks : List Token.Kind} {e : Expr}
    (h : Derives rule ks e) : ∀ z ∈ e.literals, z.im = 0 := by
  induction h with
  | tighter _ ih => exact ih
  | positive _ ih => exact ih
  | negative _ ih => exact List.forall_mem_cons.mpr ⟨rfl, ih⟩
  | number x => exact List.forall_mem_singleton.mpr rfl
  | name x => exact fun z hz => absurd hz List.not_mem_nil
  | group _ ih => exact ih
  | assign _ _ ihl ihr => exact List.forall_mem_append.mpr ⟨ihl, ihr⟩
  | binary _ _ _ ihl ihr => exact List.forall_mem_append.mpr ⟨ihl, ihr⟩
  | juxtaposed _ _ _ ihl ihr => exact List.forall_mem_append.mpr ⟨ihl, ihr⟩
  | call _ _ ihl ihr => exact List.forall_mem_append.mpr ⟨ihl, ihr⟩

theorem Written.literal {e : Expr} (h : e.Written) : ∀ z ∈ e.literals, Unsigned z.re := by
  induction e with
  | literal z => exact List.forall_mem_singleton.mpr h.1
  | name x => exact fun z hz => absurd hz List.not_mem_nil
  | operation op l r ihl ihr => exact List.forall_mem_append.mpr ⟨ihl h.1, ihr h.2⟩

/-- A tree that is read from a text is readable. -/
theorem readable_of_parse {text : String} {e : Expr} (h : parse text = .ok e) : e.Readable := by
  have hwritten := written_of_parse h
  rcases exists_of_parse h with ⟨ks, hderives, -, -⟩
  refine ⟨assignFree_or_assign_of_parse h, fun z hz => ?_, hwritten.name, size_le_of_parse h⟩
  have hre := hwritten.literal z hz
  exact ⟨hre.isFinite, hre.nonneg, im_eq_zero_of_derives hderives z hz⟩

end Expr

/-- Characters that spell a sum, with their groups nested within a bound. -/
def SpellsSum (bound : Nat) (cs : List Char) (e : Expr) : Prop :=
  ∃ ks, Spells cs ks ∧ Derives .sum ks e ∧ NestedWithin bound 0 ks

namespace SpellsSum

variable {m n : Nat} {cs ds : List Char} {l r : Expr}

/-- One token that is an operand on its own. -/
theorem token {k : Token.Kind} {rule : Rule} (hrule : Rule.sum.level ≤ rule.level)
    (h : Spells cs [k]) (hderives : Derives rule [k] l) (hopens : openAfter 0 k = 0) :
    SpellsSum 0 cs l := by
  refine ⟨[k], h, hderives.loosen hrule, ?_⟩
  rw [nestedWithin_cons_iff, hopens, nestedWithin_nil_iff]
  exact ⟨Nat.le_refl 0, Nat.le_refl 0⟩

/-- Two groups with a sign between them. -/
theorem arith (a : Arith) (hl : SpellsSum m cs l) (hr : SpellsSum n ds r) :
    SpellsSum (max m n + 1) (groupedChars cs ++ a.symbol.toList ++ groupedChars ds)
      (.operation (.arith a) l r) := by
  rcases hl with ⟨ks, hks, hlsum, hldeep⟩
  rcases hr with ⟨ls, hls, hrsum, hrdeep⟩
  rcases exists_symbol a with ⟨c, k, rule, hc, hk, hjoin⟩
  -- A group is an operand at every level, so the levels of the sign do not matter.
  have hderives := Derives.binary hjoin (hlsum.grouped rule) (hrsum.grouped rule.next)
  refine ⟨grouped ks ++ k :: grouped ls, ?_, hderives.loosen (by cases hjoin <;> decide), ?_⟩
  · rw [hc, List.append_assoc]
    exact hks.grouped.append (breaks_of_symbol? hk _) (.symbol hk hls.grouped)
  · have hlnested := hlsum.nestedWithin_grouped (hldeep.mono (Nat.le_max_left m n))
    have hrnested := hrsum.nestedWithin_grouped (hrdeep.mono (Nat.le_max_right m n))
    refine (hlsum.grouped rule).nestedWithin_append hlnested ?_
    rw [nestedWithin_cons_iff, hjoin.openAfter_eq]
    exact ⟨Nat.zero_le _, hrnested⟩

/-- Two groups next to each other. -/
theorem call (hl : SpellsSum m cs l) (hr : SpellsSum n ds r) :
    SpellsSum (max m n + 1) (groupedChars cs ++ groupedChars ds) (.operation .call l r) := by
  rcases hl with ⟨ks, hks, hlsum, hldeep⟩
  rcases hr with ⟨ls, hls, hrsum, hrdeep⟩
  have hderives := Derives.call (hlsum.grouped .callee) hrsum
  refine ⟨grouped ks ++ grouped ls, ?_, hderives.loosen (by decide), ?_⟩
  · exact hks.grouped.append (breaks_of_symbol? rfl _) hls.grouped
  · have hlnested := hlsum.nestedWithin_grouped (hldeep.mono (Nat.le_max_left m n))
    have hrnested := hrsum.nestedWithin_grouped (hrdeep.mono (Nat.le_max_right m n))
    exact (hlsum.grouped .callee).nestedWithin_append hlnested hrnested

end SpellsSum

namespace Expr

/-- The text of a tree without assignments spells the tree, nested as deep as the tree is. -/
theorem spells_source {e : Expr} (hfree : e.AssignFree)
    (hliteral : ∀ z ∈ e.literals, z.re.isFinite = true ∧ 0 ≤ z.re ∧ z.im = 0)
    (hname : ∀ x ∈ e.leaves, x.toList ≠ [] ∧ ∀ c ∈ x.toList, c.isAlpha = true) :
    SpellsSum e.depth e.source e.unsigned := by
  induction e with
  | literal z =>
    rcases hliteral z List.mem_cons_self with ⟨hfinite, hnonneg, him⟩
    have hspells := Spells.numeral (Numeral.digital_ofFloat z.re)
      (Numeral.isFinite_value_ofFloat hfinite hnonneg) (Numeral.stops_nil _) .nil
    rw [List.append_nil, Numeral.value_ofFloat_of_nonneg hfinite hnonneg] at hspells
    rw [unsigned, him]
    exact .token (by decide) hspells (Derives.number z.re.abs) rfl
  | name x =>
    rcases hname x List.mem_cons_self with ⟨hx, hletters⟩
    exact .token (by decide) (.name hx hletters) (Derives.name x) rfl
  | operation op l r ihl ihr =>
    rcases hfree with ⟨hop, hl, hr⟩
    rw [literals, List.forall_mem_append] at hliteral
    rw [leaves, List.forall_mem_append] at hname
    have hl := ihl hl hliteral.1 hname.1
    have hr := ihr hr hliteral.2 hname.2
    cases op with
    | arith a => exact hl.arith a hr
    | assign => exact absurd rfl hop
    | call => exact hl.call hr

/-- The text of a readable tree is read as that tree, up to the signs of zeros. -/
theorem parse_source {e : Expr} (h : e.Readable) (hdepth : e.depth ≤ 128) :
    parse (String.ofList e.source) = .ok e.unsigned := by
  have hliteral := h.literal
  have hname := h.name
  have hsize : e.unsigned.size ≤ 512 := (size_unsigned e).trans_le h.size
  rcases h.assign with hfree | ⟨x, r, rfl, hfree⟩
  · rcases spells_source hfree hliteral hname with ⟨ks, hspells, hsum, hdeep⟩
    refine parse_of_derives ?_ (hsum.loosen (Nat.zero_le _)) (hsum.assignFree (by simp)).bareTargets
      hsize (hdeep.mono hdepth)
    rwa [String.toList_ofList]
  · -- The target of an assignment has no parentheses, so it is not one of the operands above.
    rw [literals, List.forall_mem_append] at hliteral
    rw [leaves, List.forall_mem_append] at hname
    rcases spells_source hfree hliteral.2 hname.2 with ⟨ks, hspells, hsum, hdeep⟩
    rcases hname.1 x List.mem_cons_self with ⟨hx, hletters⟩
    have htarget : Derives .assignment [.identifier x] (.name x) :=
      (Derives.name x).loosen (Nat.zero_le _)
    have hrdepth : r.depth ≤ 128 := by
      rw [depth] at hdepth
      omega
    refine parse_of_derives ?_ (.assign htarget hsum)
      ⟨⟨x, rfl⟩, (hsum.assignFree (by simp)).bareTargets⟩ hsize ?_
    · rw [String.toList_ofList]
      exact (Spells.name hx hletters).append (breaks_of_symbol? rfl _)
        (hspells.symbol (c := '=') rfl)
    · refine htarget.nestedWithin_append (nestedWithin_of_length_le (by simp)) ?_
      rw [nestedWithin_cons_iff]
      exact ⟨Nat.zero_le _, hdeep.mono hrdepth⟩

end Expr

/-- A tree that is read from a text is readable, and none of its literals has a minus sign. A
    readable tree that is at most 128 operations deep is read from some text, where a zero with
    a minus sign is read as the other one. -/
theorem parse_image :
    (∀ text e, parse text = .ok e → e.Readable ∧ ∀ z ∈ e.literals, z.re ≠ -0.0) ∧
    ∀ e : Expr, e.Readable → e.depth ≤ 128 →
      ∃ text e', parse text = .ok e' ∧ (e' == e) = true ∧
        ((∀ z ∈ e.literals, z.re ≠ -0.0) → e' = e) := by
  refine ⟨fun text e h => ⟨Expr.readable_of_parse h, ?_⟩, fun e h hdepth => ?_⟩
  · intro z hz
    exact ((Expr.written_of_parse h).literal z hz).ne_neg_zero
  · refine ⟨_, _, Expr.parse_source h hdepth, Expr.beq_unsigned h.literal, fun hsigns => ?_⟩
    refine Expr.unsigned_eq_self fun z hz => ?_
    rcases h.literal z hz with ⟨hfinite, hnonneg, -⟩
    exact (unsigned_or_eq_of_nonneg hfinite hnonneg).resolve_right (hsigns z hz)

/-- A tree with a zero that no text has, and an equal one that is read from a text. -/
theorem parse_image_zero :
    let e : Expr := .operation (.arith .pow) (.literal ⟨-0.0, 0⟩)
      (.operation .call (.name "f") (.literal ⟨0.1, 0⟩))
    e.Readable ∧ e.depth ≤ 128 ∧ ∃ text e', parse text = .ok e' ∧ (e' == e) = true ∧ e' ≠ e := by
  intro e
  have hreadable : e.Readable := by
    refine ⟨.inl ⟨by simp, trivial, by simp, trivial, trivial⟩, ?_, ?_, by decide⟩
    · refine List.forall_mem_cons.mpr ⟨by decide, List.forall_mem_cons.mpr ⟨by decide, ?_⟩⟩
      exact fun z hz => absurd hz List.not_mem_nil
    · exact List.forall_mem_singleton.mpr ⟨by simp, List.forall_mem_singleton.mpr rfl⟩
  rcases parse_image.2 e hreadable (by decide) with ⟨text, e', hparse, hbeq, -⟩
  refine ⟨hreadable, by decide, text, e', hparse, hbeq, ?_⟩
  rintro rfl
  exact (parse_image.1 text e hparse).2 _ List.mem_cons_self rfl

end ZPlane
