import Mathlib
import ZPlane.Text.Blank

/-!
# Letters and Digits

The letters and digits of names and numerals are ASCII ones, so what they are can be told from
their code points. They are no white space, and no digit is a letter.

## Theorems

* `Text.toNat_of_isAlpha`, `Text.toNat_of_isDigit`: The code points of letters and digits.
* `Text.isWhiteSpace_of_isAlphanum`: Letters and digits are no white space.
* `Text.isAlpha_of_isDigit`: Digits are no letters.
-/

namespace ZPlane

namespace Text

theorem toNat_of_isDigit {c : Char} (h : c.isDigit = true) : 48 ≤ c.toNat ∧ c.toNat ≤ 57 := by
  simp only [Char.isDigit, Bool.and_eq_true, decide_eq_true_eq, ge_iff_le,
    UInt32.le_iff_toNat_le] at h
  exact h

theorem toNat_of_isAlpha {c : Char} (h : c.isAlpha = true) :
    65 ≤ c.toNat ∧ c.toNat ≤ 90 ∨ 97 ≤ c.toNat ∧ c.toNat ≤ 122 := by
  simp only [Char.isAlpha, Char.isUpper, Char.isLower, Bool.or_eq_true, Bool.and_eq_true,
    decide_eq_true_eq, ge_iff_le, UInt32.le_iff_toNat_le] at h
  exact h

/-- Letters and digits are no white space. -/
theorem isWhiteSpace_of_isAlphanum {c : Char} (h : c.isAlphanum = true) :
    Text.isWhiteSpace c = false := by
  have hrange : 48 ≤ c.toNat ∧ c.toNat ≤ 122 := by
    rcases Bool.or_eq_true_iff.mp h with h | h
    · have := toNat_of_isAlpha h
      omega
    · have := toNat_of_isDigit h
      omega
  simp only [Text.isWhiteSpace, Text.whiteSpaceRanges, List.any_cons, List.any_nil, Bool.or_false,
    Bool.or_eq_false_iff, Bool.and_eq_false_iff, decide_eq_false_iff_not]
  omega

theorem isAlpha_of_isDigit {c : Char} (h : c.isDigit = true) : c.isAlpha = false := by
  by_contra halpha
  have hdigit := toNat_of_isDigit h
  have hletter := toNat_of_isAlpha (Bool.eq_true_of_not_eq_false halpha)
  omega

end Text

end ZPlane
