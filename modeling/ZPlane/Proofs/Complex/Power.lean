import ZPlane.Complex.Power
import ZPlane.Proofs.Float.Value

/-!
# Powers of Gaussian Integers

A power with a natural exponent is found by repeated squaring. For a base with integral parts
the exact power has integral parts, and the question is whether anything is rounded on the way
to it. It is not, as long as the power itself is small enough for its parts to be floats.

What comes up on the way are powers of the base and products of two of them, and the last step
needs all of them: the loop stops before it squares once more than the exponent asks for. So
each divides the result. A nonzero Gaussian integer has a norm of at least one, and then no
divisor has a larger norm than the result. The products of parts and their sums, of which a
product is made, are no larger than the product.

## Main definitions

* `Complex.Is`: A complex number is a Gaussian integer.

## Theorems

* `wholeExponent?_of_rational`: A natural exponent is recognized.
* `Complex.Is.mul`: A product is exact if its norm is small enough.
* `Complex.Is.powOdd`, `Complex.Is.powNat`: So is repeated squaring.
* `Complex.pow?_of_zero`: The powers of zero.
* `Complex.gaussian_pow_exact`: Powers of Gaussian integers are exact.
-/

open Float.Model Float.Model.UnpackedFloat

namespace ZPlane

section Exponents

variable {x : Float} {n : ℕ}

theorem rational?_abs {v : ℚ} (h : rational? x = some v) : rational? x.abs = some |v| := by
  change rational? (.ofModel (.pack x.toModel.unpack.abs)) = _
  rcases unpack_of_rational h with ⟨s, hx, rfl⟩ | ⟨s, m, e, hm, hx, rfl⟩ <;> rw [hx]
  · rw [abs_zero]
    exact rational?_pack_zero _
  · have hpack := Packing.unpack_pack (s := .positive) hm (Packing.canonical_of_unpack hx)
    have habs : |signum s * ((m : ℚ) * 2 ^ e)| = m * 2 ^ e := by
      rw [abs_mul, abs_of_pos (mantissa_pos hm e)]
      cases s <;> simp [signum]
    rw [habs]
    exact (rational?_of_finite hpack).trans (by rw [signum, one_mul])

/-- A mantissa that is a natural in its unit is not cut off. -/
theorem roundToInt_eq {m : ℕ} {e : ℤ} (h : (m : ℚ) * 2 ^ e = n) :
    roundToInt .positive m e = n := by
  change ((ExtendedMantissa.ofMantissaAndAccuracy (decreaseExponent m e 0).1 .exact >>>
    (0 - (decreaseExponent m e 0).2).toNat).mantissa : ℤ) = n
  have hvalue := decreaseExponent_fst m e 0
  have hshift : min e 0 = -((0 - min e 0).toNat : ℤ) := by omega
  rw [decreaseExponent_snd, ← Rounding.extended_natCast, Rounding.shiftRight_extended,
    Rounding.extended_mantissa]
  rw [h, hshift, zpow_neg, zpow_natCast, ← div_eq_mul_inv] at hvalue
  rw [hvalue, Nat.floor_natCast]

theorem toNat_toUInt32 (h : rational? x = some (n : ℚ)) (hn : n < 2 ^ 32) :
    x.toUInt32.toNat = n := by
  have hint : x.toModel.unpack.toInt 0 (UInt32.size - 1) = n := by
    rcases unpack_of_rational h with ⟨s, hx, hzero⟩ | ⟨s, m, e, hm, hx, hvalue⟩ <;> rw [hx]
    · change (0 : ℤ) = n
      exact_mod_cast hzero.symm
    · have hpos : 0 < signum s * ((m : ℚ) * 2 ^ e) := by
        refine lt_of_le_of_ne ?_ (signum_mul_ne_zero (mantissa_pos hm e)).symm
        rw [← hvalue]
        exact Nat.cast_nonneg n
      cases (signum_mul_pos_iff (mantissa_pos hm e)).mp hpos
      rw [signum, one_mul] at hvalue
      exact roundToInt_eq hvalue.symm
  change (UInt32.ofNatClamp (x.toModel.unpack.toInt 0 (UInt32.size - 1)).toNat).toNat = n
  rw [hint, Int.toNat_natCast, UInt32.ofNatClamp_eq_ofNat n hn]
  exact Nat.mod_eq_of_lt hn

/-- A natural exponent of moderate size is recognized. -/
theorem wholeExponent?_of_rational (h : rational? x = some (n : ℚ)) (hn : n ≤ 2 ^ 31 - 1) :
    wholeExponent? x = some (n : ℤ) := by
  have habs : rational? x.abs = some (n : ℚ) := by
    rw [rational?_abs h, Nat.abs_cast]
  have hword : x.abs.toUInt32.toNat = n := toNat_toUInt32 habs (by omega)
  have hfloat : rational? x.abs.toUInt32.toFloat = some (n : ℚ) := by
    change rational? (.ofModel (.pack (UnpackedFloat.ofNat _ x.abs.toUInt32.toNat))) = _
    rw [hword]
    exact rational?_pack_ofNat (by omega)
  have hbeq : (x.abs.toUInt32.toFloat == x.abs) = true := (beq_iff_of_rational hfloat habs).mpr rfl
  have hle : x.abs.toUInt32 ≤ 2147483647 := by
    rw [UInt32.le_iff_toNat_le, hword]
    exact hn
  have hsign : ¬ x < 0 := by
    rw [lt_zero_iff_of_rational h, not_lt]
    exact Nat.cast_nonneg n
  unfold wholeExponent?
  simp only [hbeq, hle, decide_true, Bool.and_self, if_true, hsign, if_false, hword]

end Exponents

namespace Complex

/-- A complex number whose parts are those of a Gaussian integer. -/
def Is (z : Complex) (g : GaussianInt) : Prop :=
  rational? z.re = some (g.re : ℚ) ∧ rational? z.im = some (g.im : ℚ)

theorem norm_eq (g : GaussianInt) : g.norm = g.re ^ 2 + g.im ^ 2 := by
  rw [Zsqrtd.norm_def]
  ring

theorem sq_re_le (g : GaussianInt) : g.re ^ 2 ≤ g.norm := by
  rw [norm_eq]
  exact le_add_of_nonneg_right (sq_nonneg _)

theorem sq_im_le (g : GaussianInt) : g.im ^ 2 ≤ g.norm := by
  rw [norm_eq]
  exact le_add_of_nonneg_left (sq_nonneg _)

theorem norm_pow (g : GaussianInt) (n : ℕ) : (g ^ n).norm = g.norm ^ n :=
  map_pow Zsqrtd.normMonoidHom g n

/-- A part of a Gaussian integer of small norm is a small integer. -/
theorem abs_le_of_sq_le {k : ℤ} (h : k ^ 2 ≤ 2 ^ 106) : |k| ≤ 2 ^ 53 :=
  abs_le_of_sq_le_sq (h.trans (by norm_num)) (by norm_num)

variable {z w acc base : Complex} {g h A B : GaussianInt} {n : ℕ}

theorem is_one : one.Is 1 :=
  ⟨by exact_mod_cast rational?_one, rfl⟩

/-- A product is exact if its norm is small enough. -/
theorem Is.mul (hz : z.Is g) (hw : w.Is h) (hbound : g.norm * h.norm ≤ 2 ^ 106) :
    (z * w).Is (g * h) := by
  rcases hz with ⟨hzre, hzim⟩
  rcases hw with ⟨hwre, hwim⟩
  -- The products of parts are no larger than the product of the moduli.
  have hproduct {p q : ℤ} (hp : p ^ 2 ≤ g.norm) (hq : q ^ 2 ≤ h.norm) :
      Representable ((p : ℚ) * q) := by
    have hsq : (p * q) ^ 2 ≤ g.norm * h.norm := by
      rw [mul_pow]
      exact mul_le_mul hp hq (sq_nonneg q) g.norm_nonneg
    exact_mod_cast representable_intCast (abs_le_of_sq_le (hsq.trans hbound))
  -- And neither are the parts of the product.
  have hpart {k : ℤ} (hk : k ^ 2 ≤ (g * h).norm) : Representable k := by
    rw [Zsqrtd.norm_mul] at hk
    exact representable_intCast (abs_le_of_sq_le (hk.trans hbound))
  have hre : ((g * h).re : ℚ) = g.re * h.re - g.im * h.im := by
    rw [Zsqrtd.re_mul]
    push_cast
    ring
  have him : ((g * h).im : ℚ) = g.re * h.im + g.im * h.re := by
    rw [Zsqrtd.im_mul]
    push_cast
    rfl
  refine ⟨?_, ?_⟩
  · rw [hre]
    refine rational?_sub (rational?_mul hzre hwre ?_) (rational?_mul hzim hwim ?_) ?_
    · exact hproduct (sq_re_le g) (sq_re_le h)
    · exact hproduct (sq_im_le g) (sq_im_le h)
    · exact hre ▸ hpart (sq_re_le (g * h))
  · rw [him]
    refine rational?_add (rational?_mul hzre hwim ?_) (rational?_mul hzim hwre ?_) ?_
    · exact hproduct (sq_re_le g) (sq_im_le h)
    · exact hproduct (sq_im_le g) (sq_re_le h)
    · exact him ▸ hpart (sq_im_le (g * h))

section Halving

variable {R : Type*} [Monoid R] (b : R)

theorem pow_of_odd (hn : n % 2 = 1) : b ^ n = b * b ^ (2 * (n / 2)) := by
  have hsplit : n = 2 * (n / 2) + 1 := by omega
  rw [← pow_succ', ← hsplit]

theorem pow_of_even (hn : n % 2 = 0) : b ^ n = b ^ (2 * (n / 2)) := by
  have hsplit : n = 2 * (n / 2) := by omega
  rw [← hsplit]

theorem pow_two_mul (n : ℕ) : b ^ (2 * n) = (b * b) ^ n := by
  rw [pow_mul, sq]

end Halving

/-- The loop multiplies by an even power of the base, and is exact if the norm of what comes out
    is small enough. -/
theorem Is.powOdd (hacc : acc.Is A) (hbase : base.Is B) (hA : 1 ≤ A.norm) (hB : 1 ≤ B.norm)
    (hbound : A.norm * B.norm ^ (2 * (n / 2)) ≤ 2 ^ 106) :
    (powOdd acc base n).Is (A * B ^ (2 * (n / 2))) := by
  induction n using Nat.strong_induction_on generalizing acc base A B with
  | _ n ih =>
    rw [Complex.powOdd]
    by_cases hn : n ≤ 1
    · have hzero : n / 2 = 0 := by omega
      rw [if_pos hn, hzero, mul_zero, pow_zero, mul_one]
      exact hacc
    rw [if_neg hn]
    dsimp only
    rw [pow_two_mul, ← Zsqrtd.norm_mul] at hbound
    rw [pow_two_mul]
    have hsquare : 1 ≤ (B * B).norm := by
      rw [Zsqrtd.norm_mul]
      exact one_le_mul_of_one_le_of_one_le hB hB
    -- The square is a factor of what comes out, so its norm is no larger.
    have hfactor : A.norm * (B * B).norm ≤ 2 ^ 106 := by
      refine le_trans (mul_le_mul_of_nonneg_left ?_ (by omega)) hbound
      exact le_self_pow₀ hsquare (by omega)
    have hbase' : (base * base).Is (B * B) := by
      refine hbase.mul hbase ?_
      rw [← Zsqrtd.norm_mul]
      exact (le_mul_of_one_le_left (by omega) hA).trans hfactor
    by_cases hodd : n / 2 % 2 = 1
    · rw [pow_of_odd _ hodd, ← mul_assoc, ← Zsqrtd.norm_mul] at hbound
      rw [if_pos hodd, pow_of_odd _ hodd, ← mul_assoc]
      refine ih (n / 2) (by omega) (hacc.mul hbase' hfactor) hbase' ?_ hsquare hbound
      rw [Zsqrtd.norm_mul]
      exact one_le_mul_of_one_le_of_one_le hA hsquare
    · have heven : n / 2 % 2 = 0 := by omega
      rw [pow_of_even _ heven] at hbound
      rw [if_neg hodd, pow_of_even _ heven]
      exact ih (n / 2) (by omega) hacc hbase' hA hsquare hbound

/-- Repeated squaring is exact if the norm of the power is small enough. -/
theorem Is.powNat (hz : z.Is g) (hg : 1 ≤ g.norm) (hbound : g.norm ^ n ≤ 2 ^ 106) :
    (z.powNat n).Is (g ^ n) := by
  induction n using Nat.strong_induction_on generalizing z g with
  | _ n ih =>
    rw [Complex.powNat]
    by_cases hn : n = 0
    · rw [if_pos hn, hn, pow_zero]
      exact is_one
    rw [if_neg hn]
    by_cases heven : n % 2 = 0
    · have hsquare : (z * z).Is (g * g) := by
        refine hz.mul hz (le_trans ?_ hbound)
        rw [← sq]
        exact pow_le_pow_right₀ hg (by omega)
      rw [pow_of_even _ heven, pow_two_mul, ← Zsqrtd.norm_mul] at hbound
      rw [if_pos heven, pow_of_even _ heven, pow_two_mul]
      refine ih (n / 2) (by omega) hsquare ?_ hbound
      rw [Zsqrtd.norm_mul]
      exact one_le_mul_of_one_le_of_one_le hg hg
    · have hodd : n % 2 = 1 := by omega
      rw [pow_of_odd _ hodd] at hbound
      rw [if_neg heven, pow_of_odd _ hodd]
      exact hz.powOdd hz hg hg hbound

theorem isZero_iff (hz : z.Is g) : z.isZero = true ↔ g = 0 := by
  have hzero : rational? 0 = some 0 := rfl
  rw [isZero, Bool.and_eq_true, beq_iff_of_rational hz.1 hzero, beq_iff_of_rational hz.2 hzero,
    Int.cast_eq_zero, Int.cast_eq_zero, Zsqrtd.ext_iff]
  rfl

/-- The norm is the square of the modulus. -/
theorem norm_pow_le_iff : ‖(g : ℂ)‖ ^ n ≤ 2 ^ 53 ↔ g.norm ^ n ≤ 2 ^ 106 := by
  have hsq : (‖(g : ℂ)‖ ^ n) ^ 2 = ((g.norm ^ n : ℤ) : ℝ) := by
    push_cast
    rw [GaussianInt.intCast_real_norm, Complex.normSq_eq_norm_sq, pow_right_comm]
  have hlimit : ((2 : ℝ) ^ 53) ^ 2 = ((2 ^ 106 : ℤ) : ℝ) := by norm_num
  rw [← sq_le_sq₀ (by positivity) (by positivity), hsq, hlimit, Int.cast_le]

/-- A number that is a Gaussian integer of small norm equals the float of each part. -/
theorem Is.beq_ofInt (hz : z.Is g) (hnorm : g.norm ≤ 2 ^ 106) :
    (z == ⟨.ofInt g.re, .ofInt g.im⟩) = true := by
  have hre := rational?_ofInt (abs_le_of_sq_le ((sq_re_le g).trans hnorm))
  have him := rational?_ofInt (abs_le_of_sq_le ((sq_im_le g).trans hnorm))
  change (z.re == .ofInt g.re && z.im == .ofInt g.im) = true
  rw [Bool.and_eq_true, beq_iff_of_rational hz.1 hre, beq_iff_of_rational hz.2 him]
  exact ⟨rfl, rfl⟩

/-- The power of a Gaussian integer other than zero. -/
theorem Is.powNonzero (hz : z.Is g) (hg : 1 ≤ g.norm) (hw : w.Is n) (hn : n ≤ 2 ^ 31 - 1)
    (hbound : g.norm ^ n ≤ 2 ^ 106) : (z.powNonzero w).Is (g ^ n) := by
  have hreal : (w.im == 0) = true := (beq_iff_of_rational hw.2 rfl).mpr (by simp)
  have hwhole : wholeExponent? w.re = some (n : ℤ) :=
    wholeExponent?_of_rational (by simpa using hw.1) hn
  unfold Complex.powNonzero
  rw [if_pos hreal, hwhole]
  exact hz.powNat hg hbound

/-- The power of zero, which is one for a zero exponent. -/
theorem pow?_of_zero (hz : z.Is 0) (hw : w.Is n) : ∃ u, z.pow? w = some u ∧ u.Is (0 ^ n) := by
  unfold pow?
  rw [if_pos ((isZero_iff hz).mpr rfl)]
  rcases Nat.eq_zero_or_pos n with rfl | hn
  · rw [if_pos ((isZero_iff hw).mpr rfl), pow_zero]
    exact ⟨one, rfl, is_one⟩
  · have hne : ¬ w.isZero = true := by
      rw [isZero_iff hw]
      exact_mod_cast hn.ne'
    have hpos : 0 < w.re := by
      rw [zero_lt_iff_of_rational hw.1]
      simpa using hn
    rw [if_neg hne, if_pos hpos, zero_pow hn.ne']
    exact ⟨zero, rfl, rfl, rfl⟩

/-- The power of a Gaussian integer with a natural exponent is exact, if no part of it can be
    larger than `2 ^ 53`. That covers the power `0 ^ 0`, which is `1`, and the zeroth power of a
    base of any size. -/
theorem gaussian_pow_exact (hz : z.Is g) (hw : w.Is n) (hn : n ≤ 2 ^ 31 - 1)
    (hbound : ‖(g : ℂ)‖ ^ n ≤ 2 ^ 53) :
    ∃ u, z.pow? w = some u ∧ u.Is (g ^ n) ∧
      (u == ⟨.ofInt (g ^ n).re, .ofInt (g ^ n).im⟩) = true := by
  have hnorm := norm_pow_le_iff.mp hbound
  have hpower : ∃ u, z.pow? w = some u ∧ u.Is (g ^ n) := by
    by_cases hg : g = 0
    · subst hg
      exact pow?_of_zero hz hw
    · have hg' : 1 ≤ g.norm := GaussianInt.norm_pos.mpr hg
      refine ⟨z.powNonzero w, ?_, hz.powNonzero hg' hw hn hnorm⟩
      unfold pow?
      rw [if_neg (mt (isZero_iff hz).mp hg)]
  rcases hpower with ⟨u, hu, his⟩
  refine ⟨u, hu, his, his.beq_ofInt ?_⟩
  rw [norm_pow]
  exact hnorm

/-- The forty-fifth power of `2 + i`, the last one that the bound admits. -/
theorem gaussian_pow_exact_largest :
    ∃ u, pow? ⟨2, 1⟩ ⟨45, 0⟩ = some u ∧
      (u == ⟨.ofInt (-2289034253782838), .ofInt 4814772228819641⟩) = true := by
  have hz : Is ⟨2, 1⟩ ⟨2, 1⟩ := ⟨rational?_ofNat (n := 2) (by norm_num), is_one.1⟩
  have hw : Is ⟨45, 0⟩ (45 : ℕ) := ⟨rational?_ofNat (n := 45) (by norm_num), rfl⟩
  have hbound : ‖((⟨2, 1⟩ : GaussianInt) : ℂ)‖ ^ 45 ≤ 2 ^ 53 :=
    norm_pow_le_iff.mpr (by norm_num [Zsqrtd.norm_def])
  have hpower : (⟨2, 1⟩ : GaussianInt) ^ 45 = ⟨-2289034253782838, 4814772228819641⟩ := by
    decide +kernel
  rcases gaussian_pow_exact hz hw (by norm_num) hbound with ⟨u, hu, -, hbeq⟩
  rw [hpower] at hbeq
  exact ⟨u, hu, hbeq⟩

end Complex

end ZPlane
