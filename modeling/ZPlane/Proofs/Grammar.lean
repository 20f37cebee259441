import ZPlane.Expr.Parse

/-!
# The Grammar of Expressions

What an expression is, said without a parser. A rule of the grammar relates a
word, which is a list of token kinds, to the tree that it stands for:

* an assignment is a sum, or an assignment, `=` and a sum;
* a sum is a product with at most one sign before it, or a sum, `+` or `-` and a
  product;
* a product is a juxtaposition, or a product, `*` or `/` and a juxtaposition;
* a juxtaposition is a power, or a juxtaposition and a power that starts with a
  number or a name;
* a power is a primary, or a power, `^` and a primary;
* a primary is a number, a callee, or a callee and an argument in parentheses;
* a callee is a name, or a sum in parentheses.

The left operand of an operator belongs to the same rule as the whole, so every
operator groups to the left. Parentheses leave no trace in the tree.

Lexemes and columns play no part here. Two texts with the same kinds of tokens
have the same trees.

## Main definitions

* `Grammar.Rule`: The rules, loosest first.
* `Grammar.Derives`: The words of a rule with their trees.
* `Grammar.unclosed`: The number of parentheses that a word leaves open.
* `Grammar.NestedWithin`: No beginning of a word leaves too many open.
* `Expr.AssignFree`, `Expr.BareTargets`: Where assignments stand in a tree.

## Theorems

* `Grammar.Derives.loosen`: A rule derives what every tighter rule derives.
* `Grammar.Derives.assignment_cases`: What an assignment is made of.
* `Grammar.Derives.unclosed_eq`: A derived word closes what it opens.
* `Grammar.Derives.equal_not_mem`: `=` stands outside of sums.
* `Grammar.Derives.assignFree`: The tree of a sum has no assignment.
* `Grammar.nestedWithin_append_iff`: Nesting of a word by its parts.
-/

namespace ZPlane

namespace Expr

/-- No assignment stands anywhere in the tree. -/
def AssignFree : Expr → Prop
  | .literal _ => True
  | .name _ => True
  | .operation op l r => op ≠ .assign ∧ l.AssignFree ∧ r.AssignFree

/-- The tree to the left of every assignment is a bare name. -/
def BareTargets : Expr → Prop
  | .literal _ => True
  | .name _ => True
  | .operation .assign l r => (∃ x, l = .name x) ∧ r.BareTargets
  | .operation _ l r => l.BareTargets ∧ r.BareTargets

theorem AssignFree.bareTargets {e : Expr} (h : e.AssignFree) : e.BareTargets := by
  induction e with
  | literal z => trivial
  | name x => trivial
  | operation op l r ihl ihr =>
      rcases h with ⟨hop, hl, hr⟩
      cases op with
      | arith a => exact ⟨ihl hl, ihr hr⟩
      | assign => exact absurd rfl hop
      | call => exact ⟨ihl hl, ihr hr⟩

end Expr

namespace Grammar

/-- The rules of the grammar, loosest first. -/
inductive Rule
  | assignment
  | sum
  | product
  | juxtaposition
  | power
  | primary
  | callee
deriving DecidableEq

namespace Rule

/-- The rules in order, loosest first. -/
def level : Rule → Nat
  | .assignment => 0
  | .sum => 1
  | .product => 2
  | .juxtaposition => 3
  | .power => 4
  | .primary => 5
  | .callee => 6

/-- The next tighter rule. Nothing is tighter than a callee. -/
def next : Rule → Rule
  | .assignment => .sum
  | .sum => .product
  | .product => .juxtaposition
  | .juxtaposition => .power
  | .power => .primary
  | .primary => .callee
  | .callee => .callee

end Rule

/-- The tokens that join two operands, each with its rule and operator. -/
inductive Joins : Rule → Token.Kind → Arith → Prop
  | plus : Joins .sum .plus .add
  | minus : Joins .sum .minus .sub
  | star : Joins .product .star .mul
  | slash : Joins .product .slash .div
  | caret : Joins .power .caret .pow

/-- The tokens that are an operand on their own. -/
def IsAtom : Token.Kind → Prop
  | .number _ => True
  | .identifier _ => True
  | _ => False

/-- The words of a rule with the trees that they stand for. -/
inductive Derives : Rule → List Token.Kind → Expr → Prop
  | tighter {rule : Rule} {ks : List Token.Kind} {e : Expr} :
      Derives rule.next ks e → Derives rule ks e
  | assign {ls rs : List Token.Kind} {l r : Expr} :
      Derives .assignment ls l → Derives .sum rs r →
      Derives .assignment (ls ++ .equal :: rs) (.operation .assign l r)
  | positive {ks : List Token.Kind} {e : Expr} :
      Derives .product ks e → Derives .sum (.plus :: ks) e
  | negative {ks : List Token.Kind} {e : Expr} :
      Derives .product ks e →
      Derives .sum (.minus :: ks) (.operation (.arith .sub) (.literal .zero) e)
  | binary {rule : Rule} {k : Token.Kind} {a : Arith} {ls rs : List Token.Kind} {l r : Expr} :
      Joins rule k a → Derives rule ls l → Derives rule.next rs r →
      Derives rule (ls ++ k :: rs) (.operation (.arith a) l r)
  | juxtaposed {k : Token.Kind} {ls rs : List Token.Kind} {l r : Expr} :
      IsAtom k → Derives .juxtaposition ls l → Derives .power (k :: rs) r →
      Derives .juxtaposition (ls ++ k :: rs) (.operation (.arith .mul) l r)
  | number (x : Float) : Derives .primary [.number x] (.literal (.ofReal x))
  | call {fs ks : List Token.Kind} {f e : Expr} :
      Derives .callee fs f → Derives .sum ks e →
      Derives .primary (fs ++ .leftParen :: (ks ++ [.rightParen])) (.operation .call f e)
  | name (x : String) : Derives .callee [.identifier x] (.name x)
  | group {ks : List Token.Kind} {e : Expr} :
      Derives .sum ks e → Derives .callee (.leftParen :: (ks ++ [.rightParen])) e

/-- How many parentheses are open after a token, if `d` are open before it. One
    that closes nothing changes nothing. -/
def openAfter (d : Nat) : Token.Kind → Nat
  | .leftParen => d + 1
  | .rightParen => d - 1
  | _ => d

/-- How many parentheses are open after a word, if `d` are open before it. -/
def unclosedFrom (d : Nat) (ks : List Token.Kind) : Nat :=
  ks.foldl openAfter d

/-- The number of parentheses that a word opens and does not close. -/
def unclosed (ks : List Token.Kind) : Nat :=
  unclosedFrom 0 ks

/-- With `d` parentheses open before it, no beginning of the word leaves more
    than `bound` of them open. -/
def NestedWithin (bound d : Nat) (ks : List Token.Kind) : Prop :=
  ∀ ps, ps <+: ks → unclosedFrom d ps ≤ bound

theorem Rule.level_injective {r s : Rule} (h : r.level = s.level) : r = s := by
  cases r <;> cases s <;> simp only [level, reduceCtorEq] at h ⊢ <;> omega

theorem Rule.level_next_of_lt {r s : Rule} (h : r.level < s.level) :
    r.next.level = r.level + 1 := by
  cases r with
  | callee => cases s <;> simp only [level] at h <;> omega
  | _ => rfl

@[simp]
theorem unclosedFrom_nil (d : Nat) : unclosedFrom d [] = d := rfl

@[simp]
theorem unclosedFrom_cons (d : Nat) (k : Token.Kind) (ks : List Token.Kind) :
    unclosedFrom d (k :: ks) = unclosedFrom (openAfter d k) ks := rfl

@[simp]
theorem unclosedFrom_append (d : Nat) (ks ls : List Token.Kind) :
    unclosedFrom d (ks ++ ls) = unclosedFrom (unclosedFrom d ks) ls :=
  List.foldl_append

theorem unclosedFrom_le (d : Nat) (ks : List Token.Kind) :
    unclosedFrom d ks ≤ d + ks.length := by
  induction ks generalizing d with
  | nil => exact Nat.le_refl d
  | cons k ks ih =>
      have hk : openAfter d k ≤ d + 1 := by
        cases k <;> simp only [openAfter] <;> omega
      have hks := ih (openAfter d k)
      rw [unclosedFrom_cons, List.length_cons]
      omega

@[simp]
theorem nestedWithin_nil_iff {bound d : Nat} : NestedWithin bound d [] ↔ d ≤ bound := by
  constructor
  · intro h
    exact h [] List.nil_prefix
  · intro h ps hps
    rw [List.prefix_nil.mp hps]
    exact h

@[simp]
theorem nestedWithin_cons_iff {bound d : Nat} {k : Token.Kind} {ks : List Token.Kind} :
    NestedWithin bound d (k :: ks) ↔ d ≤ bound ∧ NestedWithin bound (openAfter d k) ks := by
  constructor
  · intro h
    refine ⟨h [] List.nil_prefix, fun ps hps => ?_⟩
    exact h (k :: ps) (List.cons_prefix_cons.mpr ⟨rfl, hps⟩)
  · rintro ⟨hd, hks⟩ ps hps
    cases ps with
    | nil => exact hd
    | cons p ps =>
        rcases List.cons_prefix_cons.mp hps with ⟨rfl, htail⟩
        exact hks ps htail

/-- What a word nests is what its first part nests and what its second part nests
    on top of that. -/
theorem nestedWithin_append_iff {bound d : Nat} {ks ls : List Token.Kind} :
    NestedWithin bound d (ks ++ ls) ↔
      NestedWithin bound d ks ∧ NestedWithin bound (unclosedFrom d ks) ls := by
  induction ks generalizing d with
  | nil =>
      rw [List.nil_append, nestedWithin_nil_iff, unclosedFrom_nil]
      exact ⟨fun h => ⟨h [] List.nil_prefix, h⟩, fun h => h.2⟩
  | cons k ks ih =>
      rw [List.cons_append, nestedWithin_cons_iff, nestedWithin_cons_iff, ih, unclosedFrom_cons,
        and_assoc]

theorem nestedWithin_of_length_le {bound d : Nat} {ks : List Token.Kind}
    (h : d + ks.length ≤ bound) : NestedWithin bound d ks := by
  intro ps hps
  have hlen := hps.length_le
  have hle := unclosedFrom_le d ps
  omega

namespace Derives

/-- A rule derives what every tighter rule derives. -/
theorem loosen {r s : Rule} {ks : List Token.Kind} {e : Expr} (h : Derives s ks e)
    (hrs : r.level ≤ s.level) : Derives r ks e := by
  rcases Nat.exists_eq_add_of_le hrs with ⟨n, hn⟩
  induction n generalizing r with
  | zero =>
      have heq : s = r := Rule.level_injective hn
      rw [← heq]
      exact h
  | succ n ih =>
      have hlt : r.level < s.level := by omega
      have hnext := Rule.level_next_of_lt hlt
      exact tighter (ih (by omega) (by omega))

/-- An assignment is a sum, or it has a sign `=` that is its last one. -/
theorem assignment_cases {ks : List Token.Kind} {e : Expr} (h : Derives .assignment ks e) :
    Derives .sum ks e ∨ ∃ ls rs l r, ks = ls ++ .equal :: rs ∧ e = .operation .assign l r ∧
      Derives .assignment ls l ∧ Derives .sum rs r := by
  cases h with
  | tighter h => exact .inl h
  | assign hl hr => exact .inr ⟨_, _, _, _, rfl, rfl, hl, hr⟩
  | binary hjoin _ _ => cases hjoin

/-- A derived word closes what it opens, and nothing else. -/
theorem unclosed_eq {r : Rule} {ks : List Token.Kind} {e : Expr} (h : Derives r ks e) (d : Nat) :
    unclosedFrom d ks = d := by
  induction h generalizing d with
  | tighter _ ih => exact ih d
  | assign _ _ ihl ihr => simp only [unclosedFrom_append, unclosedFrom_cons, openAfter, ihl, ihr]
  | positive _ ih => simp only [unclosedFrom_cons, openAfter, ih]
  | negative _ ih => simp only [unclosedFrom_cons, openAfter, ih]
  | binary hjoin _ _ ihl ihr =>
      cases hjoin <;> simp only [unclosedFrom_append, unclosedFrom_cons, openAfter, ihl, ihr]
  | juxtaposed _ _ _ ihl ihr => rw [unclosedFrom_append, ihl, ihr]
  | number x => rfl
  | call _ _ ihf ihe =>
      simp only [unclosedFrom_append, unclosedFrom_cons, unclosedFrom_nil, openAfter, ihf, ihe,
        Nat.add_sub_cancel]
  | name x => rfl
  | group _ ih =>
      simp only [unclosedFrom_append, unclosedFrom_cons, unclosedFrom_nil, openAfter, ih,
        Nat.add_sub_cancel]

theorem next_ne_assignment (r : Rule) : r.next ≠ .assignment := by
  cases r <;> simp only [Rule.next, ne_eq, reduceCtorEq, not_false_eq_true]

/-- The sign of an assignment stands outside of sums. -/
theorem equal_not_mem {r : Rule} {ks : List Token.Kind} {e : Expr} (h : Derives r ks e)
    (hr : r ≠ .assignment) : Token.Kind.equal ∉ ks := by
  induction h with
  | tighter _ ih => exact ih (next_ne_assignment _)
  | assign _ _ _ _ => exact absurd rfl hr
  | positive _ ih => simpa using ih
  | negative _ ih => simpa using ih
  | binary hjoin _ _ ihl ihr =>
      have hls := ihl hr
      have hrs := ihr (next_ne_assignment _)
      cases hjoin <;> simpa using ⟨hls, hrs⟩
  | juxtaposed _ _ _ ihl ihr =>
      have hls := ihl (by simp)
      have hrs := ihr (by simp)
      rw [List.mem_append, not_or]
      exact ⟨hls, hrs⟩
  | number x => simp
  | call _ _ ihf ihe =>
      have hf := ihf (by simp)
      have he := ihe (by simp)
      simpa using ⟨hf, he⟩
  | name x => simp
  | group _ ih => simpa using ih

/-- The tree of a sum has no assignment. -/
theorem assignFree {r : Rule} {ks : List Token.Kind} {e : Expr} (h : Derives r ks e)
    (hr : r ≠ .assignment) : e.AssignFree := by
  induction h with
  | tighter _ ih => exact ih (next_ne_assignment _)
  | assign _ _ _ _ => exact absurd rfl hr
  | positive _ ih => exact ih (by simp)
  | negative _ ih => exact ⟨by simp, trivial, ih (by simp)⟩
  | binary _ _ _ ihl ihr => exact ⟨by simp, ihl hr, ihr (next_ne_assignment _)⟩
  | juxtaposed _ _ _ ihl ihr => exact ⟨by simp, ihl (by simp), ihr (by simp)⟩
  | number x => trivial
  | call _ _ ihf ihe => exact ⟨by simp, ihf (by simp), ihe (by simp)⟩
  | name x => trivial
  | group _ ih => exact ih (by simp)

end Derives

end Grammar

end ZPlane
