import Mathlib
import ZPlane.Decimal.Text
import ZPlane.Token.Scan

/-!
# The Digits of Decimals

A decimal in positional form is two runs of digits around a point. Read as a numeral, they
are the digits of the decimal again, perhaps after some zeros, and so many of them stand
behind the point as the exponent says.

## Main definitions

* `Numeral.Digital`: A numeral that is made of digits.

## Theorems

* `Decimal.isDigit_of_mem_whole`, `Decimal.isDigit_of_mem_fraction`: The digits around the
  point are digits.
* `Decimal.ofDigits_whole_fraction`: They are those of the decimal.
-/

namespace ZPlane

namespace Numeral

/-- All digits, and at least one of them before the point. -/
structure Digital (n : Numeral) : Prop where
  whole_ne : n.whole ≠ []
  whole : ∀ c ∈ n.whole, c.isDigit = true
  fraction : ∀ c ∈ n.fraction.getD [], c.isDigit = true

theorem Digital.chars_plain {n : Numeral} (h : n.Digital) :
    ∀ c ∈ n.chars, c.isDigit = true ∨ c = '.' := by
  intro c hc
  rcases n with ⟨whole, _ | fraction⟩
  · exact .inl (h.whole c hc)
  · rcases List.mem_append.mp hc with hc | hc
    · exact .inl (h.whole c hc)
    · rcases List.mem_cons.mp hc with rfl | hc
      · exact .inr rfl
      · exact .inl (h.fraction c hc)

end Numeral

namespace Decimal

theorem isDigit_of_mem_digitChars {d : Decimal} {c : Char} (hc : c ∈ d.digitChars) :
    c.isDigit = true :=
  Nat.isDigit_of_mem_toDigits (by decide) (by decide) hc

theorem ofDigitChars_digitChars (d : Decimal) : Nat.ofDigitChars 10 d.digitChars 0 = d.digits :=
  Nat.ofDigitChars_ten_toDigits

theorem length_digitChars_pos (d : Decimal) : 0 < d.digitChars.length :=
  Nat.length_toDigits_pos

theorem ofDigitChars_zero (n : Nat) : Nat.ofDigitChars 10 ['0'] n = n * 10 := by
  rw [Nat.mul_comm]
  exact Nat.ofDigitChars_replicate_zero (n := 1)

/-- The digits around the point are those of the decimal, perhaps after some zeros. -/
theorem ofDigits_whole_fraction {d : Decimal} (h : d.exponent ≤ 0) :
    ofDigits d.whole d.fraction = d := by
  by_cases hneg : 0 ≤ d.exponent
  · have hzero : d.exponent = 0 := Int.le_antisymm h hneg
    unfold ofDigits whole fraction
    simp only [hzero, le_refl, if_true, Int.toNat_zero, List.replicate_zero, List.append_nil,
      ofDigitChars_digitChars]
    rw [List.length_nil, Int.natCast_zero, Int.neg_zero, ← hzero]
  have hplaces : -((-d.exponent).toNat : Int) = d.exponent := by omega
  have hpos := d.length_digitChars_pos
  have hvalue := ofDigitChars_digitChars d
  unfold ofDigits whole fraction
  simp only [if_neg hneg]
  generalize (-d.exponent).toNat = places at hplaces
  generalize d.digitChars = ds at hpos hvalue
  by_cases hsome : places < ds.length
  · -- The digits are cut in two, and no zeros are needed.
    have hkept : (ds.take (ds.length - places)).isEmpty = false := by
      rw [List.isEmpty_eq_false_iff, ← List.length_pos_iff, List.length_take]
      omega
    have hlen : (ds.drop (ds.length - places)).length = places := by
      rw [List.length_drop]
      omega
    rw [hkept, Nat.sub_eq_zero_of_le hsome.le, List.replicate_zero, List.nil_append, hlen]
    simp only [Bool.false_eq_true, if_false, List.take_append_drop, hvalue, hplaces]
  · -- No digit is left for the whole part, so a zero stands there.
    have hkept : (ds.take (ds.length - places)).isEmpty = true := by
      rw [Nat.sub_eq_zero_of_le (by omega)]
      rfl
    have hlen : (List.replicate (places - ds.length) '0' ++ ds).length = places := by
      rw [List.length_append, List.length_replicate]
      omega
    rw [hkept, Nat.sub_eq_zero_of_le (by omega : ds.length ≤ places), List.drop_zero, hlen]
    simp only [if_true, hplaces, Nat.ofDigitChars_append, Nat.ofDigitChars_replicate_zero,
      ofDigitChars_zero, Nat.zero_mul, Nat.mul_zero, hvalue]

/-- A decimal without places has its digits and zeros before the point. -/
theorem ofDigitChars_whole {d : Decimal} (h : 0 ≤ d.exponent) :
    Nat.ofDigitChars 10 d.whole 0 = d.digits * 10 ^ d.exponent.toNat := by
  unfold whole
  rw [if_pos h, Nat.ofDigitChars_append, Nat.ofDigitChars_replicate_zero, ofDigitChars_digitChars,
    Nat.mul_comm]

theorem whole_ne_nil (d : Decimal) : d.whole ≠ [] := by
  have hpos := d.length_digitChars_pos
  unfold whole
  split
  · simp [← List.length_eq_zero_iff, hpos.ne']
  · dsimp only
    split
    · simp
    · next hkept => simpa using hkept

theorem isDigit_of_mem_whole {d : Decimal} {c : Char} (hc : c ∈ d.whole) : c.isDigit = true := by
  unfold whole at hc
  split at hc
  · rcases List.mem_append.mp hc with hc | hc
    · exact isDigit_of_mem_digitChars hc
    · rw [List.eq_of_mem_replicate hc]
      rfl
  · dsimp only at hc
    split at hc
    · rw [List.mem_singleton.mp hc]
      rfl
    · exact isDigit_of_mem_digitChars (List.mem_of_mem_take hc)

theorem isDigit_of_mem_fraction {d : Decimal} {c : Char} (hc : c ∈ d.fraction) :
    c.isDigit = true := by
  unfold fraction at hc
  split at hc
  · cases hc
  · rcases List.mem_append.mp hc with hc | hc
    · rw [List.eq_of_mem_replicate hc]
      rfl
    · exact isDigit_of_mem_digitChars (List.mem_of_mem_drop hc)

end Decimal

end ZPlane
