import ZPlane.Proofs.Decimal.Digits
import ZPlane.Proofs.Decimal.ReadBack
import ZPlane.Proofs.Float.Neutral

/-!
# Decimals Written Out

A decimal without an exponent is a numeral. It denotes the same float as the decimal, also
where zeros had to be written out: before the point if the exponent is large, or behind it if
a point is wanted and nothing stands there.

Reading has a limit. A decimal with an exponent beyond it is infinite, whatever its digits
are, so the numeral of such a decimal could denote another float. No finite float other than
zero is printed with such an exponent.

## Theorems

* `Decimal.exists_numeral_positional`: A decimal written out is a numeral of the same value.
* `Decimal.exponent_le`: The exponent of a decimal that reads as a number.
* `Layout.exists_decimal_write`: An unsigned float is written as a decimal that reads back.
* `Layout.exists_numeral_write`: As a result it is written as a numeral that reads back.
* `Layout.write_neg`: A negative float is written with a minus sign.
-/

open Float.Model Float.Model.UnpackedFloat

namespace ZPlane

namespace Decimal

/-- The places behind the point are as many as the exponent says. -/
theorem length_fraction {d : Decimal} (h : d.exponent ≤ 0) :
    -(d.fraction.length : Int) = d.exponent :=
  congrArg exponent (ofDigits_whole_fraction h)

theorem positional_of_fraction {d : Decimal} (h : d.fraction ≠ []) (pointed : Bool) :
    d.positional pointed = d.whole ++ '.' :: d.fraction := by
  unfold positional
  split
  · next hnil => exact absurd hnil h
  · rfl

/-- Zeros in front of the point and behind it are read as the exponent that they stand for. -/
theorem toFloat_whole_zeros {d : Decimal} (hlow : 0 ≤ d.exponent) (hhigh : d.exponent ≤ 2048)
    {j : ℕ} (hj : j ≤ 2048) : (ofDigits d.whole (List.replicate j '0')).toFloat = d.toFloat := by
  have hshift := toFloat_shift d.digits (k := d.exponent.toNat) (j := j) (by omega) hj
  rw [Int.toNat_of_nonneg hlow] at hshift
  unfold ofDigits
  rw [Nat.ofDigitChars_append, ofDigitChars_whole hlow, Nat.ofDigitChars_replicate_zero,
    List.length_replicate, Nat.mul_left_comm, Nat.mul_comm (10 ^ j), ← Nat.pow_add]
  exact hshift

/-- A decimal written out is a numeral of the same value, and has a point if one is wanted. -/
theorem exists_numeral_positional {d : Decimal} (h : d.exponent ≤ 2048) (pointed : Bool) :
    ∃ n : Numeral, n.Digital ∧ d.positional pointed = n.chars ∧ n.value = d.toFloat ∧
      (pointed = true → '.' ∈ n.chars) := by
  have hwhole : ∀ c ∈ d.whole, c.isDigit = true := fun c hc => isDigit_of_mem_whole hc
  by_cases he : 0 ≤ d.exponent
  · -- Nothing stands behind the point, unless a zero is put there.
    have hnone : d.fraction = [] := by
      rw [fraction, if_pos he]
    cases pointed with
    | false =>
      refine ⟨⟨d.whole, none⟩, ⟨d.whole_ne_nil, hwhole, by simp⟩, ?_, ?_, by simp⟩
      · rw [positional, hnone]
        rfl
      · exact toFloat_whole_zeros he h (Nat.zero_le _)
    | true =>
      refine ⟨⟨d.whole, some ['0']⟩, ⟨d.whole_ne_nil, hwhole, by simp⟩, ?_, ?_, ?_⟩
      · rw [positional, hnone]
        rfl
      · exact toFloat_whole_zeros he h (j := 1) (by decide)
      · simp [Numeral.chars]
  · -- A negative exponent has as many places.
    have hsome : d.fraction ≠ [] := by
      intro hnil
      have hlength := length_fraction (d := d) (by omega)
      rw [hnil] at hlength
      exact he hlength.le
    refine ⟨⟨d.whole, some d.fraction⟩,
      ⟨d.whole_ne_nil, hwhole, fun c hc => isDigit_of_mem_fraction hc⟩, ?_, ?_, ?_⟩
    · exact positional_of_fraction hsome pointed
    · exact congrArg toFloat (ofDigits_whole_fraction (by omega))
    · simp [Numeral.chars]

/-- A decimal that reads as a number other than zero has no exponent beyond what can be
    read. -/
theorem exponent_le {d : Decimal} (h : Nonzero d.toFloat) : d.exponent ≤ 2048 := by
  by_contra hlarge
  have hlimit : (2 : ℤ) ^ Format.binary64.exponentBits = 2048 := rfl
  rcases h with ⟨s, n, q, hn, hx⟩
  unfold toFloat Float.Model.ofScientific UnpackedFloat.ofScientific at hx
  split at hx
  · exact UnpackedFloat.noConfusion hx
  · rw [if_pos (by omega)] at hx
    exact UnpackedFloat.noConfusion hx

end Decimal

namespace Layout

/-- An unsigned float is written as a decimal that reads back. -/
theorem exists_decimal_write (l : Layout) {x : Float} (h : Unsigned x) :
    ∃ d : Decimal, d.toFloat = x ∧ (l.write x).toList = (l.decimal d).toList := by
  have hself := Decimal.abs_eq_self h
  unfold write
  rcases h with hx | ⟨n, q, hn, hx⟩
  · -- Zero is written without a search.
    refine ⟨⟨0, 0⟩, ?_, by rw [hx]; rfl⟩
    have hback := Packing.ofModel_pack_unpack x
    rw [hx] at hback
    exact hback
  · refine ⟨(Decimal.exact n q).shortest x, Decimal.toFloat_shortest hx, ?_⟩
    rw [hx, hself]
    rfl

/-- A positive float is written in the layout of results as a numeral that reads back. -/
theorem exists_numeral_write {x : Float} (h : Unsigned x) (hne : Nonzero x) :
    ∃ n : Numeral, n.Digital ∧ (result.write x).toList = n.chars ∧ n.value = x := by
  rcases result.exists_decimal_write h with ⟨d, hd, htext⟩
  have hexponent : d.exponent ≤ 2048 := Decimal.exponent_le (hd.symm ▸ hne)
  rcases Decimal.exists_numeral_positional hexponent false with ⟨n, hdigital, hchars, hvalue, -⟩
  refine ⟨n, hdigital, ?_, hvalue.trans hd⟩
  rw [htext, ← hchars]
  exact String.toList_ofList

/-- A negative float is written as its negative, with a minus sign before it. -/
theorem write_neg (l : Layout) {x : Float} {n : ℕ} {q : ℤ} {h : 0 < n}
    (hx : x.toModel.unpack = .finite .negative n q h) :
    l.write x = "-" ++ l.write (-x) := by
  have hneg := unpack_neg hx
  have habs : x.abs = (-x).abs := by
    change Float.ofModel (.pack x.toModel.unpack.abs) =
      Float.ofModel (.pack (-x).toModel.unpack.abs)
    rw [hx, hneg]
    rfl
  unfold write
  rw [hx, hneg]
  dsimp only
  rw [habs]
  rfl

end Layout

end ZPlane
