import ZPlane.Proofs.Program
import ZPlane.Proofs.Token.Spelling

/-!
# Grouping

A text in parentheses denotes what the text denotes, and a larger text that is made of such
groups denotes the operation on their trees. So a text can be built from the texts of its
parts without looking into them: parentheses around the parts are always enough.

Three things are checked on the way. The tokens of the parts are the tokens of the whole,
since nothing goes on across a parenthesis. The grammar derives the whole from what it
derives of the parts. And the limits are kept: a group is one level deeper than what it
holds, and an operation is one more than its operands have.

An assignment cannot be put in parentheses, so the parts here are none.

## Main definitions

* `Grammar.grouped`: A word in parentheses.
* `NestsWithin`: How deep the groups of a text are nested.

## Theorems

* `Grammar.Derives.nestedWithin_grouped`: A group is one level deeper than what it holds.
* `exists_spells_of_parse`: A text that is no assignment spells a sum.
* `parse_of_derives`: A text denotes the tree that the grammar derives, within the limits.
* `parse_grouped`: Texts that are made of groups.
-/

namespace ZPlane

open Grammar Token

namespace Grammar

/-- The word in parentheses. -/
def grouped (ks : List Token.Kind) : List Token.Kind :=
  .leftParen :: (ks ++ [.rightParen])

/-- One more parenthesis before a word is at most one more after it. -/
theorem unclosedFrom_succ_le (d : Nat) (ks : List Token.Kind) :
    unclosedFrom (d + 1) ks ≤ unclosedFrom d ks + 1 := by
  induction ks generalizing d with
  | nil => exact Nat.le_refl _
  | cons k ks ih =>
    rw [unclosedFrom_cons, unclosedFrom_cons]
    cases k with
    | leftParen => exact ih (d + 1)
    | rightParen =>
      cases d with
      | zero => exact Nat.le_succ _
      | succ d => exact ih d
    | _ => exact ih d

theorem NestedWithin.succ {bound d : Nat} {ks : List Token.Kind} (h : NestedWithin bound d ks) :
    NestedWithin (bound + 1) (d + 1) ks := by
  intro ps hps
  have hle := unclosedFrom_succ_le d ps
  have hbound := h ps hps
  omega

theorem NestedWithin.mono {bound bound' d : Nat} {ks : List Token.Kind}
    (h : NestedWithin bound d ks) (hle : bound ≤ bound') : NestedWithin bound' d ks :=
  fun ps hps => Nat.le_trans (h ps hps) hle

namespace Derives

variable {ks : List Token.Kind} {e : Expr} {bound : Nat}

/-- A group stands wherever a callee does, which is everywhere. -/
theorem grouped (h : Derives .sum ks e) (rule : Rule) : Derives rule (grouped ks) e :=
  (Derives.group h).loosen (by cases rule <;> decide)

/-- A group is one level deeper than what it holds. -/
theorem nestedWithin_grouped (h : Derives .sum ks e) (hnested : NestedWithin bound 0 ks) :
    NestedWithin (bound + 1) 0 (Grammar.grouped ks) := by
  have hclosed : unclosedFrom 1 ks = 1 := h.unclosed_eq 1
  unfold Grammar.grouped
  rw [nestedWithin_cons_iff, nestedWithin_append_iff, openAfter, Nat.zero_add, hclosed,
    nestedWithin_cons_iff, nestedWithin_nil_iff]
  exact ⟨Nat.zero_le _, hnested.succ, by omega, Nat.zero_le _⟩

end Derives

/-- A sign between operands opens nothing. -/
theorem Joins.openAfter_eq {rule : Rule} {k : Token.Kind} {a : Arith} (h : Joins rule k a)
    (d : Nat) : openAfter d k = d := by
  cases h <;> rfl

/-- What stands before a word that closes what it opens does not count for the word. -/
theorem Derives.nestedWithin_append {rule : Rule} {ks ls : List Token.Kind} {e : Expr} {bound : Nat}
    (h : Derives rule ks e) (hks : NestedWithin bound 0 ks) (hls : NestedWithin bound 0 ls) :
    NestedWithin bound 0 (ks ++ ls) := by
  rw [nestedWithin_append_iff, h.unclosed_eq]
  exact ⟨hks, hls⟩

end Grammar

namespace Token

/-- Characters in parentheses. -/
def groupedChars (cs : List Char) : List Char :=
  '(' :: (cs ++ [')'])

theorem Spells.grouped {cs : List Char} {ks : List Kind} (h : Spells cs ks) :
    Spells (groupedChars cs) (Grammar.grouped ks) :=
  .symbol rfl (h.append (breaks_of_symbol? rfl []) (.symbol rfl .nil))

/-- The sign of an operator is one character, and one token of the grammar. -/
theorem exists_symbol (a : Arith) :
    ∃ c k rule, a.symbol.toList = [c] ∧ symbol? c = some k ∧ Joins rule k a := by
  cases a with
  | add => exact ⟨'+', .plus, .sum, rfl, rfl, .plus⟩
  | sub => exact ⟨'-', .minus, .sum, rfl, rfl, .minus⟩
  | mul => exact ⟨'*', .star, .product, rfl, rfl, .star⟩
  | div => exact ⟨'/', .slash, .product, rfl, rfl, .slash⟩
  | pow => exact ⟨'^', .caret, .power, rfl, rfl, .caret⟩

end Token

theorem size_le_of_parse {text : String} {e : Expr} (h : parse text = .ok e) : e.size ≤ 512 := by
  rcases parse_eq_ok_iff.mp h with ⟨_, _, _, _, hsize, _⟩
  exact hsize

/-- No more than `bound` groups of a text are nested: no beginning of its tokens leaves more
    than that many parentheses open. -/
def NestsWithin (bound : Nat) (text : String) : Prop :=
  ∀ tokens, scan text = .ok tokens →
    ∀ ps, ps <+: word tokens → unclosed ps ≤ bound

/-- A text that is no assignment spells a sum. -/
theorem exists_spells_of_parse {text : String} {e : Expr} {bound : Nat} (h : parse text = .ok e)
    (hne : ∀ target r, e ≠ .operation .assign target r) (hnests : NestsWithin bound text) :
    ∃ ks, Spells text.toList ks ∧ Derives .sum ks e ∧ NestedWithin bound 0 ks := by
  rcases parse_eq_ok_iff.mp h with ⟨tokens, hscan, hderives, -⟩
  refine ⟨_, spells_iff_scan.mpr ⟨tokens, hscan, rfl⟩, ?_, hnests tokens hscan⟩
  rcases hderives.assignment_cases with hsum | ⟨_, _, l, r, _, rfl, _, _⟩
  · exact hsum
  · exact absurd rfl (hne l r)

/-- A text denotes the tree that the grammar derives from what it spells, within the limits of
    the language. -/
theorem parse_of_derives {text : String} {ks : List Token.Kind} {e : Expr}
    (hspells : Spells text.toList ks) (hderives : Derives .assignment ks e) (hbare : e.BareTargets)
    (hsize : e.size ≤ 512) (hnested : NestedWithin 128 0 ks) : parse text = .ok e := by
  rcases spells_iff_scan.mp hspells with ⟨tokens, hscan, rfl⟩
  exact parse_eq_ok_iff.mpr ⟨tokens, hscan, hderives, hbare, hsize, hnested⟩

/-- Texts that are made of groups denote the operations on what the groups hold: a group alone
    adds nothing, two groups with a sign between them are that operation, two groups next to
    each other are a call, and a minus sign before a group subtracts it from zero. An
    assignment needs no group on its right. -/
theorem parse_grouped {a b : String} {s t : Expr} (ha : parse a = .ok s) (hb : parse b = .ok t)
    (hs : ∀ target r, s ≠ .operation .assign target r)
    (ht : ∀ target r, t ≠ .operation .assign target r)
    (hnests : NestsWithin 127 a) (hnestt : NestsWithin 127 b) :
    parse ("(" ++ a ++ ")") = .ok s ∧
    (s.size + t.size ≤ 511 →
      (∀ op : Arith, parse ("(" ++ a ++ ")" ++ op.symbol ++ "(" ++ b ++ ")") =
        .ok (.operation (.arith op) s t)) ∧
      parse ("(" ++ a ++ ")(" ++ b ++ ")") = .ok (.operation .call s t) ∧
      parse ("-(" ++ a ++ ")") = .ok (.operation (.arith .sub) (.literal .zero) s) ∧
      ∀ x : String, x.toList ≠ [] → (∀ c ∈ x.toList, c.isAlpha = true) →
        parse (x ++ "=" ++ b) = .ok (.operation .assign (.name x) t)) := by
  rcases exists_spells_of_parse ha hs hnests with ⟨ks, hks, hsum, hdeep⟩
  rcases exists_spells_of_parse hb ht hnestt with ⟨ls, hls, htsum, htdeep⟩
  have hssize := size_le_of_parse ha
  have hsbare := (hsum.assignFree (by simp)).bareTargets
  have htbare := (htsum.assignFree (by simp)).bareTargets
  have hsnested := hsum.nestedWithin_grouped hdeep
  have htnested := htsum.nestedWithin_grouped htdeep
  refine ⟨?_, fun hsize => ⟨fun op => ?_, ?_, ?_, fun x hx hletters => ?_⟩⟩
  · have htext : ("(" ++ a ++ ")").toList = groupedChars a.toList := by
      simp [groupedChars]
    exact parse_of_derives (htext ▸ hks.grouped) (hsum.grouped _) hsbare hssize hsnested
  · rcases exists_symbol op with ⟨c, k, rule, hc, hk, hjoin⟩
    have htext : ("(" ++ a ++ ")" ++ op.symbol ++ "(" ++ b ++ ")").toList =
        groupedChars a.toList ++ c :: groupedChars b.toList := by
      simp [groupedChars, hc]
    have hspells := hks.grouped.append (breaks_of_symbol? hk _) (.symbol hk hls.grouped)
    have hderives := Derives.binary hjoin (hsum.grouped rule) (htsum.grouped rule.next)
    refine parse_of_derives (htext ▸ hspells) (hderives.loosen (Nat.zero_le _)) ⟨hsbare, htbare⟩
      (Nat.succ_le_succ hsize) ?_
    refine (hsum.grouped rule).nestedWithin_append hsnested ?_
    rw [nestedWithin_cons_iff, hjoin.openAfter_eq]
    exact ⟨Nat.zero_le _, htnested⟩
  · have htext : ("(" ++ a ++ ")(" ++ b ++ ")").toList =
        groupedChars a.toList ++ groupedChars b.toList := by
      simp [groupedChars]
    have hspells := hks.grouped.append (breaks_of_symbol? rfl _) hls.grouped
    have hderives := Derives.call (hsum.grouped .callee) htsum
    exact parse_of_derives (htext ▸ hspells) (hderives.loosen (Nat.zero_le _)) ⟨hsbare, htbare⟩
      (Nat.succ_le_succ hsize) ((hsum.grouped .callee).nestedWithin_append hsnested htnested)
  · have htext : ("-(" ++ a ++ ")").toList = '-' :: groupedChars a.toList := by
      simp [groupedChars]
    have hderives := Derives.negative (hsum.grouped .product)
    refine parse_of_derives (htext ▸ hks.grouped.symbol rfl) (hderives.loosen (Nat.zero_le _))
      ⟨trivial, hsbare⟩ ?_ ?_
    · simp only [Expr.size]
      omega
    · rw [nestedWithin_cons_iff]
      exact ⟨Nat.zero_le _, hsnested⟩
  · have htext : (x ++ "=" ++ b).toList = x.toList ++ '=' :: b.toList := by
      simp
    have hspells := (Spells.name hx hletters).append (breaks_of_symbol? rfl _)
      (hls.symbol (c := '=') rfl)
    have hname : Derives .assignment [.identifier x] (.name x) :=
      (Derives.name x).loosen (Nat.zero_le _)
    refine parse_of_derives (htext ▸ hspells) (.assign hname htsum) ⟨⟨x, rfl⟩, htbare⟩ ?_ ?_
    · simp only [Expr.size]
      omega
    · refine hname.nestedWithin_append (nestedWithin_of_length_le (by simp)) ?_
      rw [nestedWithin_cons_iff]
      exact ⟨Nat.zero_le _, htdeep.mono (by decide)⟩

/-- A power of groups that would not be one without the parentheses. -/
theorem parse_grouped_power : ∃ s t, parse "x y" = .ok s ∧ parse "-f(z)" = .ok t ∧
    (∀ target r, s ≠ .operation .assign target r) ∧
    (∀ target r, t ≠ .operation .assign target r) ∧
    NestsWithin 127 "x y" ∧ NestsWithin 127 "-f(z)" ∧ s.size + t.size ≤ 511 ∧
    parse "(x y)^(-f(z))" = .ok (.operation (.arith .pow) s t) := by
  let s : Expr := .operation (.arith .mul) (.name "x") (.name "y")
  let t : Expr := .operation (.arith .sub) (.literal .zero)
    (.operation .call (.name "f") (.name "z"))
  have ha : parse "x y" = .ok s := by cbv
  have hb : parse "-f(z)" = .ok t := by cbv
  have hscana : scan "x y" = .ok
      [⟨.identifier "x", "x", 1⟩, ⟨.identifier "y", "y", 3⟩, ⟨.endOfText, "", 4⟩] := by
    cbv
  have hscanb : scan "-f(z)" = .ok
      [⟨.minus, "-", 1⟩, ⟨.identifier "f", "f", 2⟩, ⟨.leftParen, "(", 3⟩, ⟨.identifier "z", "z", 4⟩,
        ⟨.rightParen, ")", 5⟩, ⟨.endOfText, "", 6⟩] := by
    cbv
  -- Texts this short nest nothing deeply.
  have hdeep {text : String} {tokens : List Token} (hscan : scan text = .ok tokens)
      (hlength : 0 + (word tokens).length ≤ 127) : NestsWithin 127 text := by
    intro tokens' hscan'
    rw [hscan] at hscan'
    cases hscan'
    exact nestedWithin_of_length_le hlength
  have hnests := hdeep hscana (by decide)
  have hnestt := hdeep hscanb (by decide)
  have hgrouped := parse_grouped ha hb (by simp [s]) (by simp [t]) hnests hnestt
  exact ⟨s, t, ha, hb, by simp [s], by simp [t], hnests, hnestt, by decide,
    (hgrouped.2 (by decide)).1 .pow⟩

end ZPlane
