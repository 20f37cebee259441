import ZPlane.Value.Mapping
import ZPlane.Proofs.Float.Exceptions

/-!
# Division and NaN

A division by zero is refused before anything is computed. What is divided by afterwards is not
the divisor but the square of its modulus, and that square can be zero or infinite for a divisor
that is neither. A quotient of two zeros, or of two infinities, is NaN, so the check is not as
strong as the formula needs it to be: `0 / 1e-200` and `1e200 / 1e200` are NaN.

The square of the modulus of a finite divisor is never NaN itself, since squares have no minus
sign. It is zero exactly for a divisor whose parts both have squares that are too small for a
float. With that, NaN in a quotient is told by its numerators. For a divisor of moderate modulus
the check is as strong as it has to be, and only two products in a numerator that are too large
can still cancel to NaN.

## Main definitions

* `Complex.IsNumber`: Neither part is NaN.
* `Complex.DivisionDecided`: A division is refused, or has a number as its value.
* `Complex.numerators`: What the square of the modulus divides.

## Theorems

* `Complex.isNaN_normSq`: The square of the modulus of a finite divisor is a number.
* `Complex.normSq_beq_zero_iff`: When it is zero.
* `Complex.isFinite_normSq`: When it is surely finite.
* `Complex.division_decided_iff`: When a division is decided.
* `Complex.isNumber_of_moderate`: Divisors of moderate modulus.
-/

open Float.Model Float.Model.UnpackedFloat

namespace ZPlane

open Rounding

namespace Complex

/-- A complex number neither of whose parts is NaN. -/
def IsNumber (z : Complex) : Prop :=
  z.re.isNaN = false ∧ z.im.isNaN = false

/-- A division that is refused as one by zero, or has a number as its value. -/
def DivisionDecided (z w : Complex) : Prop :=
  Arith.div.apply z w = .error .divisionByZero ∨ ∃ v, Arith.div.apply z w = .ok v ∧ v.IsNumber

/-- What the square of the modulus divides, for the real and the imaginary part. -/
def numerators (z w : Complex) : List Float :=
  [z.re * w.re + z.im * w.im, z.im * w.re - z.re * w.im]

variable {z w : Complex} {a b c d : ℚ}

theorem isNumber_quotient_iff :
    (z.quotient w).IsNumber ↔ ∀ x ∈ z.numerators w, (x / w.normSq).isNaN = false := by
  simp only [numerators, List.forall_mem_cons, List.not_mem_nil, false_imp_iff, implies_true,
    and_true]
  rfl

theorem apply_div_of_isZero (h : w.isZero = true) :
    Arith.div.apply z w = .error .divisionByZero := by
  simp [Arith.apply, Arith.apply?, div?, h]

theorem apply_div_of_not_isZero (h : ¬ w.isZero = true) :
    Arith.div.apply z w = .ok (z.quotient w) := by
  simp [Arith.apply, Arith.apply?, div?, h]

/-- Past the check, only the formula decides. -/
theorem divisionDecided_iff_isNumber :
    DivisionDecided z w ↔ w.isZero = true ∨ (z.quotient w).IsNumber := by
  by_cases h : w.isZero = true
  · exact iff_of_true (.inl (apply_div_of_isZero h)) (.inl h)
  · rw [DivisionDecided, apply_div_of_not_isZero h]
    simp [h]

section Modulus

variable (hc : rational? w.re = some c) (hd : rational? w.im = some d)

include hc hd

theorem isZero_iff_of_rational : w.isZero = true ↔ c = 0 ∧ d = 0 := by
  have hzero : rational? 0 = some 0 := rfl
  rw [isZero, Bool.and_eq_true, beq_iff_of_rational hc hzero, beq_iff_of_rational hd hzero]

/-- The square of the modulus is a number, since neither of its terms has a minus sign. -/
theorem isNaN_normSq : w.normSq.isNaN = false := by
  refine Bool.eq_false_iff.mpr fun hnan => ?_
  rcases isNaN_add_iff.mp hnan with h | h | ⟨s, hre, him⟩
  · exact (roundsTo_square hc).ne_notANumber (isNaN_iff_unpack.mp h)
  · exact (roundsTo_square hd).ne_notANumber (isNaN_iff_unpack.mp h)
  · -- The infinities would have different signs, and both squares are positive.
    cases (((roundsTo_square hc).eq_infinity_iff s).mp hre).1
    cases (((roundsTo_square hd).eq_infinity_iff _).mp him).1

/-- The squares of the parts as floats, if neither is too large. -/
theorem exists_rational_squares (hre : c ^ 2 < tooLarge) (him : d ^ 2 < tooLarge) :
    ∃ p q, rational? (w.re * w.re) = some p ∧ rational? (w.im * w.im) = some q ∧ 0 ≤ p + q ∧
      p + q ≤ 2 * (c ^ 2 + d ^ 2) ∧ (p + q = 0 ↔ c ^ 2 ≤ tooSmall ∧ d ^ 2 ≤ tooSmall) := by
  rcases (roundsTo_square hc).exists_rational (sq_nonneg c) hre with ⟨p, hp, hp0, hple, hpz⟩
  rcases (roundsTo_square hd).exists_rational (sq_nonneg d) him with ⟨q, hq, hq0, hqle, hqz⟩
  refine ⟨p, q, hp, hq, add_nonneg hp0 hq0, by linarith, ?_⟩
  rw [← hpz, ← hqz]
  exact add_eq_zero_iff_of_nonneg hp0 hq0

/-- The square of the modulus is zero exactly if the squares of both parts are too small. -/
theorem normSq_beq_zero_iff :
    (w.normSq == 0) = true ↔ c ^ 2 ≤ tooSmall ∧ d ^ 2 ≤ tooSmall := by
  by_cases hlarge : c ^ 2 < tooLarge ∧ d ^ 2 < tooLarge
  · rcases exists_rational_squares hc hd hlarge.1 hlarge.2 with ⟨p, q, hp, hq, -, -, hzero⟩
    rw [← hzero]
    exact add_beq_zero_iff hp hq
  · refine iff_of_false (fun hzero => hlarge ?_) fun hsmall => hlarge ?_
    · -- A sum that is zero is finite, and so are its terms.
      rcases isFinite_of_add (isFinite_of_beq_zero hzero) with ⟨hre, him⟩
      exact ⟨(roundsTo_square hc).isFinite_iff.mp hre, (roundsTo_square hd).isFinite_iff.mp him⟩
    · exact ⟨hsmall.1.trans_lt tooSmall_lt_tooLarge, hsmall.2.trans_lt tooSmall_lt_tooLarge⟩

/-- The square of the modulus is finite up to a modulus of `2 ^ 511`. -/
theorem isFinite_normSq (h : c ^ 2 + d ^ 2 ≤ 2 ^ (1022 : ℤ)) : w.normSq.isFinite = true := by
  -- Rounding may double each square, and even then the sum is not too large.
  have hlimit : 2 * (c ^ 2 + d ^ 2) < tooLarge := by
    have hpos : (0 : ℚ) < 2 ^ (970 : ℤ) := zpow_pos two_pos _
    rw [zpow_eq_mul 52 (e := 1022) (f := 970) (by norm_num)] at h
    rw [tooLarge_eq]
    generalize (2 : ℚ) ^ (970 : ℤ) = unit at h hpos
    linarith
  have hre := sq_nonneg c
  have him := sq_nonneg d
  rcases exists_rational_squares hc hd (by linarith) (by linarith) with
    ⟨p, q, hp, hq, hpq, hle, -⟩
  refine (isFinite_add_iff hp hq).mpr ?_
  rw [abs_of_nonneg hpq]
  exact hle.trans_lt hlimit

/-- What becomes NaN when it is divided by the square of the modulus. -/
theorem isNaN_div_normSq_iff (x : Float) : (x / w.normSq).isNaN = false ↔
    x.isNaN = false ∧ ((x == 0) = true → tooSmall < c ^ 2 ∨ tooSmall < d ^ 2) ∧
      (x.isInf = true → w.normSq.isInf = false) := by
  have hsmall : ¬ (c ^ 2 ≤ tooSmall ∧ d ^ 2 ≤ tooSmall) ↔
      tooSmall < c ^ 2 ∨ tooSmall < d ^ 2 := by
    rw [not_and_or, not_le, not_le]
  rw [← Bool.not_eq_true, isNaN_div_iff, isNaN_normSq hc hd, normSq_beq_zero_iff hc hd, ← hsmall]
  simp only [Bool.false_eq_true, false_or, not_or, not_and, Bool.not_eq_true]

end Modulus

/-- A division by a finite divisor is decided exactly if the divisor is zero, or if neither
    numerator is NaN, none is zero where the squares of both parts are too small, and none is
    infinite where the square of the modulus is infinite. -/
theorem division_decided_iff (z : Complex) (hc : rational? w.re = some c)
    (hd : rational? w.im = some d) :
    DivisionDecided z w ↔
      c = 0 ∧ d = 0 ∨
        ∀ x ∈ z.numerators w,
          x.isNaN = false ∧ ((x == 0) = true → tooSmall < c ^ 2 ∨ tooSmall < d ^ 2) ∧
            (x.isInf = true → w.normSq.isInf = false) := by
  rw [divisionDecided_iff_isNumber, isZero_iff_of_rational hc hd, isNumber_quotient_iff]
  simp only [isNaN_div_normSq_iff hc hd]

/-- Dividing by the least float, `1 + i` has a quotient with two infinite parts, and the quotient
    of `1` has a part that is NaN. -/
theorem division_decided_iff_least :
    DivisionDecided ⟨1, 1⟩ ⟨5e-324, 0⟩ ∧ ¬ DivisionDecided ⟨1, 0⟩ ⟨5e-324, 0⟩ := by
  have hd : rational? 0 = some 0 := rfl
  have hc : rational? 5e-324 = some (2 ^ (-1074 : ℤ)) := by
    have hleast : (5e-324 : Float) = .ofBits 1 := by decide +kernel
    have hunpack : (Float.ofBits 1).toModel.unpack = .finite .positive 1 (-1074) one_pos := rfl
    rw [hleast, rational?_of_finite hunpack, signum, one_mul, Nat.cast_one, one_mul]
  have hboth : numerators ⟨1, 1⟩ ⟨5e-324, 0⟩ = [5e-324, 5e-324] := by decide +kernel
  have hzero : numerators ⟨1, 0⟩ ⟨5e-324, 0⟩ = [5e-324, 0] := by decide +kernel
  have hsquare : ((2 : ℚ) ^ (-1074 : ℤ)) ^ 2 ≤ tooSmall := by
    rw [← zpow_natCast, ← zpow_mul]
    exact zpow_le_zpow_right₀ one_le_two (by norm_num)
  refine ⟨(division_decided_iff (w := ⟨5e-324, 0⟩) ⟨1, 1⟩ hc hd).mpr (.inr ?_), fun h => ?_⟩
  · rw [hboth]
    intro x hx
    obtain rfl : x = 5e-324 := by simpa using hx
    refine ⟨by decide +kernel, fun h => absurd h ?_, fun h => absurd h ?_⟩ <;> decide +kernel
  · rcases (division_decided_iff (w := ⟨5e-324, 0⟩) ⟨1, 0⟩ hc hd).mp h with ⟨hre, -⟩ | hnum
    · exact zpow_ne_zero _ two_ne_zero hre
    · rw [hzero] at hnum
      -- The numerator of the imaginary part is zero, and so is what it is divided by.
      rcases (hnum 0 (by simp)).2.1 (by decide) with hlarge | hlarge
      · exact hlarge.not_ge hsquare
      · exact hlarge.not_ge (by simpa using tooSmall_pos.le)

/-- A value with a part that is NaN is not decided on. -/
theorem not_divisionDecided {v : Complex} (h : Arith.div.apply z w = .ok v)
    (hv : v.re.isNaN = true) : ¬ DivisionDecided z w := by
  rintro (herror | ⟨v', hv', hnumber⟩)
  · rw [h] at herror
    cases herror
  · rw [h] at hv'
    cases hv'
    rw [hnumber.1] at hv
    cases hv

/-- Zero divided by `1e-200`, whose square is too small, and `1e200` divided by itself, whose
    square is too large, are NaN. -/
theorem division_undecided :
    ¬ DivisionDecided ⟨0, 0⟩ ⟨1e-200, 0⟩ ∧ ¬ DivisionDecided ⟨1e200, 0⟩ ⟨1e200, 0⟩ := by
  refine ⟨not_divisionDecided (v := ⟨.nan, .nan⟩) ?_ ?_, not_divisionDecided (v := ⟨.nan, 0⟩) ?_ ?_⟩
  all_goals decide +kernel

section Moderate

/-- Two numbers that are too large and have the same sign. -/
def BothTooLarge (u v : ℚ) : Prop :=
  tooLarge ≤ u ∧ tooLarge ≤ v ∨ u ≤ -tooLarge ∧ v ≤ -tooLarge

theorem bothTooLarge_iff {u v : ℚ} :
    BothTooLarge u v ↔ ∃ s, tooLarge ≤ signum s * u ∧ tooLarge ≤ signum s * v := by
  constructor
  · rintro (⟨hu, hv⟩ | ⟨hu, hv⟩)
    · exact ⟨.positive, by simpa [signum] using hu, by simpa [signum] using hv⟩
    · exact ⟨.negative, by simpa [signum] using le_neg.mpr hu,
        by simpa [signum] using le_neg.mpr hv⟩
  · rintro ⟨s, hu, hv⟩
    cases s with
    | positive => exact .inl ⟨by simpa [signum] using hu, by simpa [signum] using hv⟩
    | negative =>
      rw [signum, neg_one_mul, le_neg] at hu hv
      exact .inr ⟨hu, hv⟩

variable (ha : rational? z.re = some a) (hb : rational? z.im = some b)
  (hc : rational? w.re = some c) (hd : rational? w.im = some d)

include ha hb hc hd

/-- The numerators of a quotient of finite numbers are NaN only if products that are too large
    cancel. -/
theorem isNaN_numerators_iff : (∀ x ∈ z.numerators w, x.isNaN = false) ↔
    ¬ BothTooLarge (a * c) (-(b * d)) ∧ ¬ BothTooLarge (b * c) (a * d) := by
  -- Products of finite floats are numbers, so only their infinities can make NaN.
  have hre : (z.re * w.re + z.im * w.im).isNaN = true ↔ BothTooLarge (a * c) (-(b * d)) := by
    rw [isNaN_add_iff, isNaN_mul_of_rational ha hc, isNaN_mul_of_rational hb hd, bothTooLarge_iff]
    simp only [Bool.false_eq_true, false_or, mul_eq_infinity_iff ha hc, mul_eq_infinity_iff hb hd,
      signum_neg, neg_mul, mul_neg]
  have him : (z.im * w.re - z.re * w.im).isNaN = true ↔ BothTooLarge (b * c) (a * d) := by
    rw [isNaN_sub_iff, isNaN_mul_of_rational hb hc, isNaN_mul_of_rational ha hd, bothTooLarge_iff]
    simp only [Bool.false_eq_true, false_or, mul_eq_infinity_iff hb hc, mul_eq_infinity_iff ha hd]
  rw [← hre, ← him, Bool.not_eq_true, Bool.not_eq_true]
  simp [numerators]

/-- For a divisor of moderate modulus the check is as strong as it has to be. What is left is a
    numerator in which two products are too large and cancel. -/
theorem isNumber_of_moderate (hlow : tooSmall < c ^ 2 ∨ tooSmall < d ^ 2)
    (hhigh : c ^ 2 + d ^ 2 ≤ 2 ^ (1022 : ℤ)) :
    ∃ v, Arith.div.apply z w = .ok v ∧
      (v.IsNumber ↔ ¬ BothTooLarge (a * c) (-(b * d)) ∧ ¬ BothTooLarge (b * c) (a * d)) := by
  have hnonzero : ¬ w.isZero = true := by
    rw [isZero_iff_of_rational hc hd]
    rintro ⟨rfl, rfl⟩
    simp [tooSmall_pos.not_gt] at hlow
  have hfinite : w.normSq.isInf = false := isInf_of_isFinite (isFinite_normSq hc hd hhigh)
  refine ⟨_, apply_div_of_not_isZero hnonzero, ?_⟩
  -- The square of the modulus is neither zero nor infinite, so the numerators decide.
  rw [isNumber_quotient_iff, ← isNaN_numerators_iff ha hb hc hd]
  simp only [isNaN_div_normSq_iff hc hd, hlow, hfinite, implies_true, and_true]

end Moderate

end Complex

end ZPlane
