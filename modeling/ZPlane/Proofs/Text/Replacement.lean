import Mathlib
import ZPlane.Text.Replace

/-!
# What Replacement Leaves Alone

A replacement walks over a text from left to right and acts where the pattern starts. Of a
text that is put together from pieces it leaves those alone in which the pattern starts
nowhere, whatever it does to the others. Whether the pattern starts in a piece also depends on
what follows, since it may start there and end later on.

No occurrence reaches over a character that the pattern does not have. At such a character a
text falls into pieces that can be searched one by one.

## Main definitions

* `Text.StartsNowhere`: No occurrence of a pattern starts in a piece of a text.

## Theorems

* `Text.replaceAll_append`: A piece in which the pattern starts nowhere.
* `Text.replaceAll_pattern`: A piece that is the pattern.
* `Text.startsNowhere_of_not_mem`: A piece without the first character of the pattern.
* `Text.infix_append_cons_iff`: Where a pattern occurs around a character that it does not have.
* `Text.replaceAll_append_of_head?`: Pieces with such a character between them.
-/

namespace ZPlane

namespace Text

variable {pattern replacement a b : List Char} {c : Char}

/-- No occurrence of the pattern starts in `a` when `b` follows. -/
def StartsNowhere (pattern a b : List Char) : Prop :=
  ∀ s ∈ a.tails, s ≠ [] → ¬pattern <+: s ++ b

instance : Decidable (StartsNowhere pattern a b) :=
  inferInstanceAs (Decidable (∀ s ∈ a.tails, s ≠ [] → ¬pattern <+: s ++ b))

/-- A pattern starts nowhere in a piece without its first character. -/
theorem startsNowhere_of_not_mem (hpattern : pattern.head? = some c) (h : c ∉ a)
    (b : List Char) : StartsNowhere pattern a b := by
  intro s hs hne hstarts
  rcases s with - | ⟨d, s⟩
  · exact hne rfl
  rcases pattern with - | ⟨p, ps⟩
  · cases hpattern
  cases hpattern
  have hd : c = d := (List.cons_prefix_cons.mp hstarts).1
  exact h (((List.mem_tails _ _).mp hs).mem (hd ▸ List.mem_cons_self))

/-- A pattern that does not occur starts nowhere. -/
theorem startsNowhere_of_not_infix (h : ¬pattern <:+: a) : StartsNowhere pattern a [] := by
  intro s hs _ hstarts
  rw [List.append_nil] at hstarts
  exact h (hstarts.isInfix.trans ((List.mem_tails _ _).mp hs).isInfix)

/-- What follows can only add places where the pattern starts. -/
theorem StartsNowhere.of_append (h : StartsNowhere pattern a b) : StartsNowhere pattern a [] := by
  intro s hs hne hstarts
  rw [List.append_nil] at hstarts
  exact h s hs hne (hstarts.trans (List.prefix_append s b))

/-- A pattern does not reach over a character that it does not have. -/
theorem prefix_append_cons_iff (hc : c ∉ pattern) :
    pattern <+: a ++ c :: b ↔ pattern <+: a := by
  constructor
  · intro h
    rcases List.prefix_or_prefix_of_prefix h (List.prefix_append a (c :: b)) with h' | ⟨t, rfl⟩
    · exact h'
    -- Otherwise it is `a` and more, and what is more starts with `c`.
    rcases t with - | ⟨d, t⟩
    · rw [List.append_nil]
    · rw [List.prefix_append_right_inj, List.cons_prefix_cons] at h
      rw [h.1] at hc
      exact absurd (List.mem_append_right a List.mem_cons_self) hc
  · intro h
    exact h.trans (List.prefix_append a (c :: b))

/-- Around a character that a pattern does not have, it occurs on one side or on the other. -/
theorem infix_append_cons_iff (hne : pattern ≠ []) (hc : c ∉ pattern) :
    pattern <:+: a ++ c :: b ↔ pattern <:+: a ∨ pattern <:+: b := by
  induction a with
  | nil =>
    have hstart : ¬pattern <+: [] ++ c :: b := by
      rwa [prefix_append_cons_iff hc, List.prefix_nil]
    rw [List.nil_append] at hstart ⊢
    rw [List.infix_cons_iff, List.infix_nil]
    simp only [hstart, hne, false_or]
  | cons d a ih =>
    rw [List.cons_append, List.infix_cons_iff, List.infix_cons_iff, ih, ← List.cons_append,
      prefix_append_cons_iff hc, or_assoc]

/-- A piece in which the pattern starts nowhere is left alone. -/
theorem replaceAll_append (h : StartsNowhere pattern a b) :
    replaceAll pattern replacement (a ++ b) = a ++ replaceAll pattern replacement b := by
  induction a with
  | nil => rfl
  | cons c cs ih =>
    rw [StartsNowhere, List.tails_cons, List.forall_mem_cons] at h
    have hhere : ¬pattern.isPrefixOf (c :: (cs ++ b)) = true := by
      rw [List.isPrefixOf_iff_prefix]
      exact h.1 (List.cons_ne_nil c cs)
    rw [List.cons_append, replaceAll, if_neg hhere, ih h.2, List.cons_append]

/-- The pattern itself is replaced, and the search goes on behind it. -/
theorem replaceAll_pattern (hpattern : pattern ≠ []) :
    replaceAll pattern replacement (pattern ++ b) =
      replacement ++ replaceAll pattern replacement b := by
  rcases pattern with - | ⟨p, ps⟩
  · exact absurd rfl hpattern
  have hhere : (p :: ps).isPrefixOf (p :: (ps ++ b)) = true :=
    List.isPrefixOf_iff_prefix.mpr (List.prefix_append (p :: ps) b)
  rw [List.cons_append, replaceAll, if_pos hhere, List.length_cons, Nat.add_sub_cancel,
    List.drop_left]

/-- A text in which the pattern starts nowhere is left alone. -/
theorem replaceAll_eq_self (h : StartsNowhere pattern a []) :
    replaceAll pattern replacement a = a := by
  have happend : replaceAll pattern replacement (a ++ []) = _ := replaceAll_append h
  rwa [List.append_nil, replaceAll, List.append_nil] at happend

/-- Pieces are searched one by one where the second starts with a character that the pattern
    does not have. -/
theorem replaceAll_append_of_head? (hb : b.head? = some c) (hc : c ∉ pattern) :
    replaceAll pattern replacement (a ++ b) =
      replaceAll pattern replacement a ++ replaceAll pattern replacement b := by
  rcases b with - | ⟨d, b⟩
  · cases hb
  cases hb
  fun_induction replaceAll pattern replacement a with
  | case1 => rfl
  | case2 d cs hhere ih =>
    have hprefix := List.isPrefixOf_iff_prefix.mp hhere
    have hhere' : pattern.isPrefixOf (d :: (cs ++ c :: b)) = true :=
      List.isPrefixOf_iff_prefix.mpr ((prefix_append_cons_iff hc).mpr hprefix)
    have hfits : pattern.length - 1 ≤ cs.length := by
      have hlength := hprefix.length_le
      rw [List.length_cons] at hlength
      omega
    rw [List.cons_append, replaceAll, if_pos hhere', List.drop_append_of_le_length hfits, ih,
      List.append_assoc]
  | case3 d cs hhere ih =>
    have hhere' : ¬pattern.isPrefixOf (d :: (cs ++ c :: b)) = true := by
      rw [List.isPrefixOf_iff_prefix] at hhere ⊢
      exact fun h => hhere ((prefix_append_cons_iff hc).mp h)
    rw [List.cons_append, replaceAll, if_neg hhere', ih, List.cons_append]

end Text

end ZPlane
