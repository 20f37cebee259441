import ZPlane.Proofs.Float.Packing

/-!
# Rounding to a Float

The operations on floats work with an exact mantissa and exponent and round at the
end. On the way to its exponent a mantissa drops bits, and two of them are kept: the
first one dropped, and whether any later one was set.

A mantissa with these two bits is all there is to know about a rational number in
some unit, as far as rounding goes. `extended` is that mantissa, as a function of the
number. Every shift of a mantissa is then a division of the number, and two
computations that stand for the same number must end at the same float. How they
got there does not matter, as long as their unit was fine enough to begin with.

`nearest` is the float that a positive number is rounded to, and it is a function of
the number alone. A decimal is rounded to the float nearest to it, whichever way it is
written, and a number that is a float is rounded to itself.

## Main definitions

* `Rounding.extended`: The mantissa of a number in some unit, with its two bits.
* `Rounding.target`: The exponent at which a number is rounded.
* `Rounding.nearest`: The float that a positive number is rounded to.
* `Rounding.Settled`: The mantissas and exponents that rounding ends with.

## Theorems

* `Rounding.shiftRight_extended`: Shifting right divides the number.
* `Rounding.extended_div`: A quotient of naturals, with what its remainder says.
* `Rounding.roundWithAccuracy_eq_nearest`: Rounding depends on the number alone.
* `Rounding.target_canonical`, `Rounding.nearest_canonical`: A number that is a float rounds to
  itself.
* `Rounding.ofScientific_eq_nearest`: A decimal is rounded as the number that it is.
-/

open Float.Model Float.Model.UnpackedFloat

namespace ZPlane

namespace Rounding

/-- The whole part of a number, with the bit of its halves and a bit for whatever is
    left beyond that. -/
def extended (x : ℚ) : ExtendedMantissa :=
  ⟨⌊2 * x⌋₊ / 2, decide (⌊2 * x⌋₊ % 2 ≠ 0), decide ((⌊2 * x⌋₊ : ℚ) ≠ 2 * x)⟩

/-- The three parts of an extended mantissa, told by twice the number. -/
theorem extended_eq {x : ℚ} {m : ℕ} {r s : Bool} (hfloor : ⌊2 * x⌋₊ = 2 * m + r.toNat)
    (hrest : ((2 * m + r.toNat : ℕ) : ℚ) = 2 * x ↔ s = false) : extended x = ⟨m, r, s⟩ := by
  have hm : (2 * m + r.toNat) / 2 = m := by
    cases r <;> simp only [Bool.toNat_false, Bool.toNat_true] <;> omega
  have hr : decide ((2 * m + r.toNat) % 2 ≠ 0) = r := by
    cases r <;> simp
  have hs : decide (((2 * m + r.toNat : ℕ) : ℚ) ≠ 2 * x) = s := by
    cases s
    · exact decide_eq_false (not_not.mpr (hrest.mpr rfl))
    · exact decide_eq_true fun h => nomatch hrest.mp h
  rw [extended, hfloor, hm, hr, hs]

theorem extended_natCast (m : ℕ) :
    extended m = ExtendedMantissa.ofMantissaAndAccuracy m .exact := by
  have htwice : ((2 * m + false.toNat : ℕ) : ℚ) = 2 * m := by
    push_cast
    exact add_zero _
  refine extended_eq ?_ (iff_of_true htwice rfl)
  rw [← htwice, Nat.floor_natCast]

theorem extended_mantissa (x : ℚ) : (extended x).mantissa = ⌊x⌋₊ := by
  change ⌊2 * x⌋₊ / 2 = ⌊x⌋₊
  rw [← Nat.floor_div_ofNat, mul_div_cancel_left₀ x two_ne_zero]

/-- A number is whole exactly if twice the number is whole and even. -/
theorem floor_eq_self_iff (x : ℚ) :
    (⌊x⌋₊ : ℚ) = x ↔ ⌊2 * x⌋₊ % 2 = 0 ∧ (⌊2 * x⌋₊ : ℚ) = 2 * x := by
  constructor
  · intro hx
    have htwice : 2 * x = ((2 * ⌊x⌋₊ : ℕ) : ℚ) := by
      push_cast
      rw [hx]
    rw [htwice, Nat.floor_natCast]
    exact ⟨Nat.mul_mod_right 2 _, rfl⟩
  · rintro ⟨heven, htwice⟩
    have hfloor : ⌊2 * x⌋₊ / 2 = ⌊x⌋₊ := extended_mantissa x
    have hdouble : ((2 * ⌊x⌋₊ : ℕ) : ℚ) = 2 * x := by
      rw [← htwice]
      congr 1
      omega
    push_cast at hdouble
    linarith

/-- Shifting right by one place halves the number. -/
theorem shiftRightOne_extended (x : ℚ) : (extended x).shiftRightOne = extended (x / 2) := by
  have hhalf : 2 * (x / 2) = x := mul_div_cancel₀ x two_ne_zero
  have hparts : ⌊x⌋₊ = 2 * (⌊x⌋₊ / 2) + (⌊x⌋₊ % 2 != 0).toNat := by
    rcases Nat.mod_two_eq_zero_or_one ⌊x⌋₊ with h | h <;> simp [h] <;> omega
  unfold ExtendedMantissa.shiftRightOne
  rw [extended_mantissa]
  refine (extended_eq ?_ ?_).symm
  · rw [hhalf]
    exact hparts
  · rw [hhalf, ← hparts, floor_eq_self_iff]
    simp [extended]

theorem shiftRight_extended (x : ℚ) (k : ℕ) : extended x >>> k = extended (x / 2 ^ k) := by
  change k.repeat ExtendedMantissa.shiftRightOne (extended x) = _
  induction k with
  | zero => simp [Nat.repeat]
  | succ k ih => rw [Nat.repeat, ih, shiftRightOne_extended, div_div, ← pow_succ]

/-- The quotient of two naturals, with what its remainder says about the rest. -/
theorem extended_div {n d q r : ℕ} (hsplit : d * q + r = n) (hr : r < d) :
    extended ((n : ℚ) / d) =
      ExtendedMantissa.ofMantissaAndAccuracy q (accuracyOfFraction r d) := by
  have hd : 0 < d := by omega
  have hd' : (d : ℚ) ≠ 0 := by exact_mod_cast hd.ne'
  have hfloor : ⌊2 * ((n : ℚ) / d)⌋₊ = 2 * q + 2 * r / d := by
    rw [← mul_div_assoc, ← Nat.mul_add_div hd, mul_left_comm, ← mul_add, hsplit,
      ← Nat.floor_div_eq_div (K := ℚ)]
    push_cast
    rfl
  have hwhole (b : ℕ) : ((2 * q + b : ℕ) : ℚ) = 2 * ((n : ℚ) / d) ↔ d * b = 2 * r := by
    rw [← mul_div_assoc, eq_div_iff hd', ← hsplit]
    norm_cast
    constructor <;> intro h <;> nlinarith
  -- The remainder lies below, at or above half of the divisor.
  rcases lt_trichotomy (2 * r) d with hlt | heq | hgt
  · have hzero : 2 * r / d = 0 := Nat.div_eq_of_lt hlt
    by_cases hr0 : r = 0
    · rw [accuracyOfFraction, if_pos hr0]
      refine extended_eq (hfloor.trans (congrArg _ hzero)) (iff_of_true ?_ rfl)
      exact (hwhole 0).mpr (by omega)
    · have hcompare : compare (2 * r) d = .lt := Nat.compare_eq_lt.mpr hlt
      rw [accuracyOfFraction, if_neg hr0, hcompare]
      refine extended_eq (hfloor.trans (congrArg _ hzero)) (iff_of_false ?_ nofun)
      exact fun h => hr0 (by have := (hwhole 0).mp h; omega)
  · have hone : 2 * r / d = 1 := by rw [heq, Nat.div_self hd]
    have hcompare : compare (2 * r) d = .eq := Nat.compare_eq_eq.mpr heq
    rw [accuracyOfFraction, if_neg (by omega), hcompare]
    refine extended_eq (hfloor.trans (congrArg _ hone)) (iff_of_true ?_ rfl)
    exact (hwhole 1).mpr (by omega)
  · have hone : 2 * r / d = 1 := Nat.div_eq_of_lt_le (by omega) (by omega)
    have hcompare : compare (2 * r) d = .gt := Nat.compare_eq_gt.mpr hgt
    rw [accuracyOfFraction, if_neg (by omega), hcompare]
    refine extended_eq (hfloor.trans (congrArg _ hone)) (iff_of_false ?_ nofun)
    exact fun h => by have := (hwhole 1).mp h; omega

/-- The exponent at which a positive number is rounded: 53 bits, or fewer at the least
    exponent. -/
def target (v : ℚ) : ℤ :=
  max (Int.log 2 v - 52) (-1074)

theorem log_eq {v : ℚ} {k : ℤ} (hle : (2 : ℚ) ^ k ≤ v) (hlt : v < 2 ^ (k + 1)) :
    Int.log 2 v = k := by
  have hv : 0 < v := lt_of_lt_of_le (zpow_pos two_pos k) hle
  refine le_antisymm ?_ ?_
  · exact Int.lt_add_one_iff.mp ((Int.lt_zpow_iff_log_lt one_lt_two hv).mp (by exact_mod_cast hlt))
  · exact (Int.zpow_le_iff_le_log one_lt_two hv).mp (by exact_mod_cast hle)

/-- The leading bit of a number is the leading bit of its whole part, in any unit in which
    it has one. -/
theorem log_eq_log2_floor {v : ℚ} {e : ℤ} (hpos : 0 < ⌊v / 2 ^ e⌋₊) :
    Int.log 2 v = (⌊v / 2 ^ e⌋₊.log2 : ℤ) + e := by
  have hunit : (0 : ℚ) < 2 ^ e := zpow_pos two_pos e
  have hquot : 0 ≤ v / 2 ^ e := by
    by_contra hneg
    rw [Nat.floor_of_nonpos (by linarith)] at hpos
    exact lt_irrefl 0 hpos
  generalize hm : ⌊v / 2 ^ e⌋₊ = m at hpos
  have hle : (m : ℚ) ≤ v / 2 ^ e := by
    rw [← hm]
    exact Nat.floor_le hquot
  have hlt : v / 2 ^ e < (m + 1 : ℕ) := by
    rw [← hm]
    exact_mod_cast Nat.lt_floor_add_one _
  have hlow : ((2 ^ m.log2 : ℕ) : ℚ) ≤ m := by
    exact_mod_cast Nat.log2_self_le hpos.ne'
  have hhigh : ((m + 1 : ℕ) : ℚ) ≤ ((2 ^ (m.log2 + 1) : ℕ) : ℚ) := by
    exact_mod_cast Nat.lt_log2_self
  refine log_eq ?_ ?_
  · rw [zpow_add₀ two_ne_zero, ← le_div_iff₀ hunit, zpow_natCast]
    exact_mod_cast hlow.trans hle
  · rw [add_right_comm, zpow_add₀ two_ne_zero, ← div_lt_iff₀ hunit]
    exact_mod_cast hlt.trans_le hhigh

/-- The exponent that a mantissa asks for is the one for its number, whatever unit the
    mantissa counts, as long as the unit is fine enough. -/
theorem targetExponent_floor {v : ℚ} {e : ℤ} (hv : 0 < v) (he : e ≤ target v) :
    Format.binary64.targetExponent (totalExponent ⌊v / 2 ^ e⌋₊ e) = target v := by
  change max ((⌊v / 2 ^ e⌋₊.log2 : ℤ) + 1 + e - 53) (-1074) = target v
  unfold target at he ⊢
  rcases Nat.eq_zero_or_pos ⌊v / 2 ^ e⌋₊ with hzero | hpos
  · -- Less than one unit is left, so the unit is that of the least exponent or below.
    have hlt : v < 2 ^ e := by
      have := Nat.floor_eq_zero.mp hzero
      rwa [div_lt_one (zpow_pos two_pos e)] at this
    have hlog : Int.log 2 v < e :=
      (Int.lt_zpow_iff_log_lt one_lt_two hv).mp (by exact_mod_cast hlt)
    rw [hzero]
    simp only [Nat.log2_zero]
    omega
  · rw [log_eq_log2_floor hpos]
    omega

/-- A number at the exponent where it is rounded. -/
def atTarget (v : ℚ) : ExtendedMantissa × ℤ :=
  (extended (v / 2 ^ target v), target v)

/-- Shifting a mantissa to its exponent depends on its number alone. -/
theorem shiftToTargetExponent_eq {v : ℚ} {m : ℕ} {e : ℤ} {a : Accuracy} (hv : 0 < v)
    (hm : ExtendedMantissa.ofMantissaAndAccuracy m a = extended (v / 2 ^ e))
    (he : e ≤ target v) :
    shiftToTargetExponent Format.binary64 m e a = atTarget v := by
  have hmantissa : m = ⌊v / 2 ^ e⌋₊ := by
    rw [← extended_mantissa, ← hm]
    rcases a with _ | o
    · rfl
    · cases o <;> rfl
  have htarget := targetExponent_floor hv he
  rw [← hmantissa] at htarget
  unfold shiftToTargetExponent shiftToExponent
  simp only [htarget, hm, shiftRight_extended]
  -- The shift is to the right, since the unit was at least as fine as it has to be.
  have hshift : ((target v - e).toNat : ℤ) = target v - e := Int.toNat_of_nonneg (by omega)
  refine Prod.ext ?_ ?_
  · change extended _ = extended _
    congr 1
    rw [div_div, ← zpow_natCast, hshift, ← zpow_add₀ two_ne_zero]
    congr 2
    omega
  · change e + _ = target v
    omega

/-- The float nearest to a positive number, with a tie going to the even mantissa. -/
def nearest (s : Sign) (v : ℚ) : UnpackedFloat :=
  let rounded :=
    shiftToTargetExponent Format.binary64 (atTarget v).1.roundedMantissa (target v) .exact
  if h : rounded.1.mantissa = 0 then .zero s
  else .finite s rounded.1.mantissa rounded.2 (Nat.pos_of_ne_zero h)

/-- Rounding depends on the number alone. -/
theorem roundWithAccuracy_eq_nearest {v : ℚ} {m : ℕ} {e : ℤ} {a : Accuracy} (s : Sign)
    (hv : 0 < v) (hm : ExtendedMantissa.ofMantissaAndAccuracy m a = extended (v / 2 ^ e))
    (he : e ≤ target v) :
    roundWithAccuracy Format.binary64 s m e a = nearest s v := by
  unfold roundWithAccuracy
  rw [shiftToTargetExponent_eq hv hm he]
  rfl

theorem log_mantissa {m : ℕ} (hm : 0 < m) (e : ℤ) :
    Int.log 2 ((m : ℚ) * 2 ^ e) = m.log2 + e := by
  have hfloor : ⌊(m : ℚ) * 2 ^ e / 2 ^ e⌋₊ = m := by
    rw [mul_div_cancel_right₀ _ (zpow_ne_zero e two_ne_zero), Nat.floor_natCast]
  have hlog := log_eq_log2_floor (v := (m : ℚ) * 2 ^ e) (e := e) (by rwa [hfloor])
  rwa [hfloor] at hlog

/-- The mantissas and exponents that rounding ends with. The exponent may be too large for a
    float. -/
structure Settled (m : ℕ) (e : ℤ) : Prop where
  lt : m < 2 ^ 53
  le : -1074 ≤ e
  full : 2 ^ 52 ≤ m ∨ e = -1074

/-- A mantissa that has the bits it is to have is rounded at its own exponent. -/
theorem target_settled {m : ℕ} {e : ℤ} (hm : 0 < m) (hs : Settled m e) :
    target ((m : ℚ) * 2 ^ e) = e := by
  have hlt : m.log2 < 53 := (Nat.log2_lt hm.ne').mpr hs.lt
  have hle := hs.le
  unfold target
  rw [log_mantissa hm]
  rcases hs.full with hfull | hmin
  · have : 52 ≤ m.log2 := (Nat.le_log2 hm.ne').mpr hfull
    omega
  · omega

/-- A number that is a float is rounded at its own exponent. -/
theorem target_canonical {n : ℕ} {q : ℤ} (h : 0 < n) (hc : Packing.Canonical n q) :
    target ((n : ℚ) * 2 ^ q) = q :=
  target_settled h ⟨hc.lt, hc.le, hc.full⟩

/-- A number that is a float rounds to itself. -/
theorem nearest_canonical {n : ℕ} {q : ℤ} (s : Sign) (h : 0 < n) (hc : Packing.Canonical n q) :
    nearest s (n * 2 ^ q) = .finite s n q h := by
  have hunit : (2 : ℚ) ^ q ≠ 0 := zpow_ne_zero q two_ne_zero
  have hpos : (0 : ℚ) < n * 2 ^ q := mul_pos (by exact_mod_cast h) (zpow_pos two_pos q)
  have hquot : (n : ℚ) * 2 ^ q / 2 ^ q = n := mul_div_cancel_right₀ _ hunit
  have htarget := target_canonical h hc
  -- Nothing was dropped, so the mantissa is rounded to itself.
  have hrounded : (atTarget ((n : ℚ) * 2 ^ q)).1.roundedMantissa = n := by
    unfold atTarget
    rw [htarget, hquot, extended_natCast]
    rfl
  have hexact : shiftToTargetExponent Format.binary64 n q .exact = atTarget ((n : ℚ) * 2 ^ q) := by
    refine shiftToTargetExponent_eq hpos ?_ htarget.ge
    rw [hquot, extended_natCast]
  have hfinal : shiftToTargetExponent Format.binary64
      (atTarget ((n : ℚ) * 2 ^ q)).1.roundedMantissa (target ((n : ℚ) * 2 ^ q)) .exact =
      (extended n, q) := by
    rw [hrounded, htarget, hexact, atTarget, htarget, hquot]
  unfold nearest
  simp only [hfinal, extended_mantissa, Nat.floor_natCast, h.ne', dite_false]

theorem plain_roundWithAccuracy (m : ℕ) (e : ℤ) (a : Accuracy) :
    Packing.Plain (roundWithAccuracy Format.binary64 .positive m e a) := by
  unfold roundWithAccuracy
  dsimp only
  split <;> rfl

theorem plain_ofScientific (m : ℕ) (e : ℤ) :
    Packing.Plain (UnpackedFloat.ofScientific Format.binary64 m e) := by
  unfold UnpackedFloat.ofScientific
  split
  · rfl
  split
  · rfl
  split
  · rfl
  split
  · exact plain_roundWithAccuracy _ _ _
  · exact plain_roundWithAccuracy _ _ _

/-- A product with a power of ten is computed with bits to spare. -/
theorem round_mul_eq_nearest {m : ℕ} (hm : 0 < m) (k : ℕ) :
    roundWithAccuracy Format.binary64 .positive (m <<< 53 * 10 ^ k) (-53) .exact =
      nearest .positive (m * 10 ^ k) := by
  have hone : (1 : ℚ) ≤ m * 10 ^ k := by
    exact_mod_cast Nat.mul_pos hm (Nat.pow_pos (by decide))
  refine roundWithAccuracy_eq_nearest _ (by linarith) ?_ ?_
  · -- The unit is `2 ^ (-53)`, and the mantissa was shifted to the left by as much.
    rw [← extended_natCast, Nat.shiftLeft_eq]
    congr 1
    push_cast
    rw [zpow_neg, div_inv_eq_mul, mul_right_comm]
    rfl
  · have hlog : 0 ≤ Int.log 2 ((m : ℚ) * 10 ^ k) :=
      (Int.zpow_le_iff_le_log one_lt_two (by linarith)).mp (by simpa using hone)
    unfold target
    omega

/-- A quotient has its leading bit where the leading bits of its parts say, or one place
    below. -/
theorem log2_sub_le_log_div {m d : ℕ} (hm : 0 < m) (hd : 0 < d) :
    (m.log2 : ℤ) - d.log2 - 1 ≤ Int.log 2 ((m : ℚ) / d) := by
  have hd' : (0 : ℚ) < d := by exact_mod_cast hd
  have hm' : (0 : ℚ) < m := by exact_mod_cast hm
  refine (Int.zpow_le_iff_le_log one_lt_two (div_pos hm' hd')).mp ?_
  have hlow : ((2 ^ m.log2 : ℕ) : ℚ) ≤ m := by
    exact_mod_cast Nat.log2_self_le hm.ne'
  have hhigh : (d : ℚ) ≤ ((2 ^ (d.log2 + 1) : ℕ) : ℚ) := by
    exact_mod_cast Nat.lt_log2_self.le
  rw [le_div_iff₀ hd']
  calc ((2 : ℕ) : ℚ) ^ ((m.log2 : ℤ) - d.log2 - 1) * d
      ≤ ((2 : ℕ) : ℚ) ^ ((m.log2 : ℤ) - d.log2 - 1) * ((2 ^ (d.log2 + 1) : ℕ) : ℚ) :=
        mul_le_mul_of_nonneg_left hhigh (zpow_nonneg (by norm_num) _)
    _ = ((2 ^ m.log2 : ℕ) : ℚ) := by
        push_cast
        rw [← zpow_natCast, ← zpow_natCast, ← zpow_add₀ two_ne_zero]
        congr 1
        push_cast
        ring
    _ ≤ m := hlow

/-- A quotient is computed with bits to spare, and the remainder says the rest. -/
theorem div_eq_nearest {m d : ℕ} (hm : 0 < m) (hd : 0 < d) :
    UnpackedFloat.div Format.binary64 (.finite .positive m 0 hm) (.finite .positive d 0 hd) =
      nearest .positive (m / d) := by
  have hd' : (0 : ℚ) < d := by exact_mod_cast hd
  have hm' : (0 : ℚ) < m := by exact_mod_cast hm
  have hlog := log2_sub_le_log_div hm hd
  -- The unit of the quotient is a negative power of two, `k` places down.
  obtain ⟨k, hcore, hk⟩ : ∃ k : ℕ, divCore Format.binary64 m 0 d 0 =
      (m * 2 ^ k / d, -(k : ℤ), accuracyOfFraction (m * 2 ^ k % d) d) ∧
        -(k : ℤ) ≤ target (m / d) := by
    generalize ht : min (0 - 0 : ℤ)
      (Format.binary64.targetExponent (totalExponent m 0 - totalExponent d 0)) = t
    have hexp : t = min 0 (max ((m.log2 : ℤ) - d.log2 - 53) (-1074)) := by
      rw [← ht]
      change min (0 - 0 : ℤ) (max ((m.log2 : ℤ) + 1 + 0 - (d.log2 + 1 + 0) - 53) (-1074)) = _
      omega
    refine ⟨(-t).toNat, ?_, ?_⟩
    · unfold divCore
      simp only [ht, Nat.shiftLeft_eq]
      have hshift : (0 - 0 - t).toNat = (-t).toNat := by omega
      have hneg : t = -((-t).toNat : ℤ) := by omega
      rw [hshift, ← hneg]
    · unfold target
      omega
  change (let r := divCore Format.binary64 m 0 d 0
    roundWithAccuracy Format.binary64 .positive r.1 r.2.1 r.2.2) = _
  rw [hcore]
  refine roundWithAccuracy_eq_nearest _ (div_pos hm' hd') ?_ hk
  rw [← extended_div (Nat.div_add_mod _ d) (Nat.mod_lt _ hd)]
  congr 1
  push_cast
  rw [zpow_neg, div_inv_eq_mul, zpow_natCast, div_mul_eq_mul_div]

/-- A power of ten times a natural is rounded as the number that it is, unless the power is
    so large or so small that it is not looked at. -/
theorem ofScientific_eq_nearest {m : ℕ} {e : ℤ} (hm : 0 < m) (hlow : -2048 ≤ e)
    (hhigh : e ≤ 2048) :
    UnpackedFloat.ofScientific Format.binary64 m e = nearest .positive (m * 10 ^ e) := by
  have hbits : Format.binary64.exponentBits = 11 := rfl
  unfold UnpackedFloat.ofScientific
  rw [dif_neg hm.ne', if_neg (by rw [hbits]; omega), if_neg (by rw [hbits]; omega)]
  split
  · next he =>
    obtain ⟨k, rfl⟩ := Int.eq_ofNat_of_zero_le he
    exact round_mul_eq_nearest hm k
  · next he =>
    obtain ⟨k, rfl⟩ : ∃ k : ℕ, e = -k := ⟨(-e).toNat, by omega⟩
    rw [div_eq_nearest hm]
    congr 1
    push_cast
    rw [zpow_neg, div_eq_mul_inv, neg_neg, Int.toNat_natCast, zpow_natCast]

end Rounding

end ZPlane
