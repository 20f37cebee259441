import ZPlane.Proofs.Float.Value

/-!
# The Range of Floats

Rounding gives every positive number a mantissa and an exponent, but not every number a float
other than zero. A number of at most half the least unit is rounded to zero. A number that is
within half a unit of `2 ^ 1024`, or larger, has an exponent that no float has, and is packed as
an infinity. Both bounds are exact: a number in the middle between two mantissas goes to the even
one, which is zero for the lower bound and `2 ^ 1024` for the upper one.

`RoundsTo` lists the three cases. What an operation on floats does then follows from the size of
the exact result.

## Main definitions

* `Rounding.rounded`: How many units a number is rounded to.
* `Rounding.tooSmall`, `Rounding.tooLarge`: The bounds of the range.
* `Rounding.RoundsTo`: What a number is rounded to, by its size.

## Theorems

* `Packing.isNaN_pack`: Packing does not make NaN of anything else.
* `Rounding.lt_roundedMantissa_iff`: Where a number is rounded up.
* `Rounding.nearest_cases`: What rounding ends with.
* `Rounding.rounded_eq_zero_iff`, `Rounding.rounded_lt_iff`: The bounds are exact.
* `Rounding.roundsTo_nearest`: Every positive number is rounded as listed.
* `Rounding.rounded_mul_le`: Rounding at most doubles a number.
-/

open Float.Model Float.Model.UnpackedFloat

namespace ZPlane

namespace Packing

theorem unpack_pack_zero (s : Sign) :
    (Float.ofModel (.pack (.zero s))).toModel.unpack = .zero s := by
  cases s <;> rfl

theorem unpack_packedInfinity (s : Sign) :
    unpack Format.binary64 (packedInfinity Format.binary64 s) = .infinity s := by
  cases s <;> rfl

/-- An exponent that is too large is packed as an infinity. -/
theorem unpack_pack_infinity {s : Sign} {m : ℕ} {e : ℤ} (hm : 0 < m) (he : 972 ≤ e) :
    (Float.ofModel (.pack (.finite s m e hm))).toModel.unpack = .infinity s := by
  have hlarge : 2 ^ Format.binary64.exponentBits ≤ (e + (Format.binary64.exponentBias : Int) +
      (Format.binary64.mantissaBitsWithoutImplicit : Int)).toNat + 1 := by
    change 2 ^ 11 ≤ (e + 1023 + 52).toNat + 1
    omega
  change unpack Format.binary64 (UnpackedFloat.pack Format.binary64 _) = _
  unfold UnpackedFloat.pack
  dsimp only
  rw [if_pos hlarge, unpack_packedInfinity]

/-- What is packed as something finite was finite. -/
theorem isFinite_of_pack {u : UnpackedFloat} (h : (Float.ofModel (.pack u)).isFinite = true) :
    u.isFinite = true := by
  cases u with
  | notANumber => cases h
  | infinity s => cases s <;> cases h
  | zero s => rfl
  | finite s m e hm => rfl

theorem Unpacks.isNaN_eq {s : Sign} {e : BitVec 11} {m : BitVec 52} {u : UnpackedFloat}
    (h : Unpacks s e m u) (he : e ≠ -1#11) : u.isNaN = false := by
  cases h with
  | notANumber htop _ => exact absurd htop he
  | infinity _ _ => rfl
  | zero _ _ => rfl
  | subnormal _ _ _ _ => rfl
  | normal _ _ _ _ _ => rfl

/-- Packing does not make NaN of anything else. -/
theorem isNaN_pack (u : UnpackedFloat) : (Float.ofModel (.pack u)).isNaN = u.isNaN := by
  change (unpack Format.binary64 (UnpackedFloat.pack Format.binary64 u)).isNaN = _
  cases u with
  | notANumber => rfl
  | infinity s => cases s <;> rfl
  | zero s => cases s <;> rfl
  | finite s m e hm =>
    unfold UnpackedFloat.pack
    dsimp only
    split
    · rw [unpack_packedInfinity]
      rfl
    · next hfits =>
      -- The exponent fits, so not all of its bits are set.
      have htop (k : ℕ) (hk : ¬ 2 ^ 11 ≤ k + 1) : BitVec.ofNat 11 k ≠ -1#11 := by
        intro h
        have hmod := congrArg BitVec.toNat h
        rw [BitVec.toNat_ofNat] at hmod
        change k % 2 ^ 11 = 2047 at hmod
        omega
      split
      · exact (unpacks_packComponents s _ _).isNaN_eq (htop _ hfits)
      · exact (unpacks_packComponents s _ _).isNaN_eq (by decide)

end Packing

namespace Rounding

variable {v : ℚ}

section Mantissas

/-- A number is rounded up past `k` if it lies above the middle between `k` and the next natural.
    The middle itself is rounded to the even one of the two. -/
theorem lt_roundedMantissa_iff {x : ℚ} (hx : 0 ≤ x) (k : ℕ) :
    k < (extended x).roundedMantissa ↔ k + 1 / 2 < x ∨ x = k + 1 / 2 ∧ k % 2 = 1 := by
  have hle : (⌊2 * x⌋₊ : ℚ) ≤ 2 * x := Nat.floor_le (by linarith)
  have hlt : 2 * x < (⌊2 * x⌋₊ + 1 : ℕ) := by exact_mod_cast Nat.lt_floor_add_one (2 * x)
  have habove : (k : ℚ) + 1 / 2 < x ↔ ((2 * k + 1 : ℕ) : ℚ) < 2 * x := by
    push_cast
    constructor <;> intro h <;> linarith
  have hmiddle : x = k + 1 / 2 ↔ ((2 * k + 1 : ℕ) : ℚ) = 2 * x := by
    push_cast
    constructor <;> intro h <;> linarith
  rw [habove, hmiddle]
  unfold extended
  generalize 2 * x = y at hle hlt
  generalize ⌊y⌋₊ = n at hle hlt
  -- Twice the number is a natural, or it lies between two of them.
  rcases hle.eq_or_lt with rfl | hrest
  · have htie : ((2 * k + 1 : ℕ) : ℚ) = n ↔ 2 * k + 1 = n := Nat.cast_inj
    rw [Nat.cast_lt, htie]
    rcases Nat.mod_two_eq_zero_or_one n with hn | hn <;>
      simp [ExtendedMantissa.roundedMantissa, ExtendedMantissa.accuracy,
        Accuracy.roundToNearestEven, hn] <;> omega
  · have hnot : ¬ ((2 * k + 1 : ℕ) : ℚ) = y := by
      rintro rfl
      rw [Nat.cast_lt] at hrest hlt
      omega
    have hiff : ((2 * k + 1 : ℕ) : ℚ) < y ↔ 2 * k + 1 ≤ n := by
      refine ⟨fun h => ?_, fun h => lt_of_le_of_lt (by exact_mod_cast h) hrest⟩
      exact Nat.lt_succ_iff.mp (by exact_mod_cast h.trans hlt)
    rw [hiff, or_iff_left fun h => hnot h.1]
    rcases Nat.mod_two_eq_zero_or_one n with hn | hn <;>
      simp [ExtendedMantissa.roundedMantissa, ExtendedMantissa.accuracy,
        Accuracy.roundToNearestEven, hn, hrest.ne] <;> omega

/-- How many units of its target a number is rounded to. -/
def rounded (v : ℚ) : ℕ :=
  (atTarget v).1.roundedMantissa

theorem lt_rounded_iff (hv : 0 < v) (k : ℕ) :
    k < rounded v ↔
      k + 1 / 2 < v / 2 ^ target v ∨ v / 2 ^ target v = k + 1 / 2 ∧ k % 2 = 1 :=
  lt_roundedMantissa_iff (div_nonneg hv.le (zpow_nonneg zero_le_two _)) k

/-- In units of its target a number has at most 53 bits before the point. -/
theorem div_target_lt (v : ℚ) : v / 2 ^ target v < 2 ^ 53 := by
  have hlog : v < (2 : ℕ) ^ (Int.log 2 v + 1) := Int.lt_zpow_succ_log_self one_lt_two v
  rw [div_lt_iff₀ (zpow_pos two_pos _), ← zpow_natCast, ← zpow_add₀ two_ne_zero]
  refine lt_of_lt_of_le (by exact_mod_cast hlog) (zpow_le_zpow_right₀ one_le_two ?_)
  unfold target
  push_cast
  omega

/-- It has all 53 bits unless its target is the least one. -/
theorem le_div_target (hv : 0 < v) : 2 ^ 52 ≤ v / 2 ^ target v ∨ target v = -1074 := by
  by_cases hmin : target v = -1074
  · exact .inr hmin
  · have hlog : (2 : ℕ) ^ Int.log 2 v ≤ v := Int.zpow_log_le_self one_lt_two hv
    refine .inl ?_
    rw [le_div_iff₀ (zpow_pos two_pos _), ← zpow_natCast, ← zpow_add₀ two_ne_zero]
    refine le_trans (zpow_le_zpow_right₀ one_le_two ?_) (by exact_mod_cast hlog)
    unfold target at hmin ⊢
    push_cast
    omega

theorem rounded_le (hv : 0 < v) : rounded v ≤ 2 ^ 53 := by
  have hlt := div_target_lt v
  rw [← not_lt, lt_rounded_iff hv]
  push_cast
  rintro (h | ⟨h, -⟩) <;> linarith

theorem le_rounded (hv : 0 < v) : 2 ^ 52 ≤ rounded v ∨ target v = -1074 := by
  refine (le_div_target hv).imp_left fun hle => ?_
  have hlt : 2 ^ 52 - 1 < rounded v := by
    rw [lt_rounded_iff hv]
    left
    norm_num
    linarith
  omega

/-- The mantissa has one bit too many after rounding from the middle between the last two
    mantissas on, since the lower one of them is odd. -/
theorem rounded_lt_top_iff (hv : 0 < v) :
    rounded v < 2 ^ 53 ↔ v / 2 ^ target v < 2 ^ 53 - 1 / 2 := by
  have hlast : ((2 ^ 53 - 1 : ℕ) : ℚ) + 1 / 2 = 2 ^ 53 - 1 / 2 := by norm_num
  have hodd : (2 ^ 53 - 1) % 2 = 1 := by norm_num
  have hround := lt_rounded_iff hv (2 ^ 53 - 1)
  rw [hlast, and_iff_left hodd, eq_comm, ← le_iff_lt_or_eq] at hround
  rw [← not_le, ← not_le, ← hround]
  omega

/-- Rounding at most doubles a number. -/
theorem rounded_mul_le (hv : 0 < v) : (rounded v : ℚ) * 2 ^ target v ≤ 2 * v := by
  have hunit : (0 : ℚ) < 2 ^ target v := zpow_pos two_pos _
  suffices (rounded v : ℚ) ≤ 2 * (v / 2 ^ target v) by
    rw [← mul_div_assoc] at this
    exact (le_div_iff₀ hunit).mp this
  rcases Nat.eq_zero_or_pos (rounded v) with hzero | hpos
  · rw [hzero, Nat.cast_zero]
    exact mul_nonneg zero_le_two (div_nonneg hv.le hunit.le)
  · -- It is at least half a unit, and not more than that is added.
    obtain ⟨k, hk⟩ : ∃ k, rounded v = k + 1 := ⟨rounded v - 1, by omega⟩
    have hhalf : (k : ℚ) + 1 / 2 ≤ v / 2 ^ target v := by
      rcases (lt_rounded_iff hv k).mp (by omega) with h | ⟨h, -⟩
      · exact h.le
      · exact h.ge
    have hk0 : (0 : ℚ) ≤ k := Nat.cast_nonneg k
    rw [hk]
    push_cast
    linarith

end Mantissas

/-- What was rounded is settled, if one bit too many makes the exponent larger by one. -/
theorem exists_settled (hv : 0 < v) (hpos : 0 < rounded v) :
    ∃ m e, 0 < m ∧ Settled m e ∧ (m : ℚ) * 2 ^ e = rounded v * 2 ^ target v ∧ target v ≤ e := by
  have hmin : -1074 ≤ target v := le_max_right _ _
  rcases (rounded_le hv).eq_or_lt with htop | hlt
  · -- The mantissa is a power of two then, and halving it drops nothing.
    refine ⟨2 ^ 52, target v + 1, by norm_num, ⟨by norm_num, by omega, .inl le_rfl⟩, ?_, by omega⟩
    rw [htop, zpow_add_one₀ two_ne_zero]
    push_cast
    ring
  · exact ⟨rounded v, target v, hpos, ⟨hlt, hmin, le_rounded hv⟩, rfl, le_rfl⟩

/-- Rounding ends with zero, or with a mantissa and an exponent. -/
theorem nearest_cases (hv : 0 < v) (s : Sign) :
    rounded v = 0 ∧ nearest s v = .zero s ∨
      ∃ m e hm, nearest s v = .finite s m e hm ∧ Settled m e ∧
        (m : ℚ) * 2 ^ e = rounded v * 2 ^ target v := by
  have hnearest : nearest s v =
      let final := shiftToTargetExponent Format.binary64 (rounded v) (target v) .exact
      if h : final.1.mantissa = 0 then .zero s
      else .finite s final.1.mantissa final.2 (Nat.pos_of_ne_zero h) := rfl
  rcases Nat.eq_zero_or_pos (rounded v) with hzero | hpos
  · have hfinal : (shiftToTargetExponent Format.binary64 0 (target v) .exact).1.mantissa = 0 := by
      unfold shiftToTargetExponent shiftToExponent
      dsimp only
      rw [← extended_natCast, shiftRight_extended, extended_mantissa, Nat.cast_zero, zero_div,
        Nat.floor_zero]
    refine .inl ⟨hzero, ?_⟩
    rw [hnearest, hzero]
    simp only [hfinal, dite_true]
  · rcases exists_settled hv hpos with ⟨m, e, hm, hsettled, hvalue, he⟩
    have hunit (t : ℤ) : (2 : ℚ) ^ t ≠ 0 := zpow_ne_zero t two_ne_zero
    have htarget := target_settled hm hsettled
    rw [hvalue] at htarget
    -- The second shift goes to the target of what was rounded, and drops nothing.
    have hshift : shiftToTargetExponent Format.binary64 (rounded v) (target v) .exact =
        atTarget (rounded v * 2 ^ target v) := by
      refine shiftToTargetExponent_eq (mantissa_pos hpos _) ?_ (by rw [htarget]; exact he)
      rw [mul_div_cancel_right₀ _ (hunit _), extended_natCast]
    have hfinal : shiftToTargetExponent Format.binary64 (rounded v) (target v) .exact =
        (extended m, e) := by
      rw [hshift, atTarget, htarget, ← hvalue, mul_div_cancel_right₀ _ (hunit _)]
    refine .inr ⟨m, e, hm, ?_, hsettled, hvalue⟩
    rw [hnearest]
    simp only [hfinal, extended_mantissa, Nat.floor_natCast, hm.ne', dite_false]

section Bounds

/-- The largest number that is rounded to zero. -/
def tooSmall : ℚ :=
  2 ^ (-1075 : ℤ)

/-- The least number that is rounded to an infinity. -/
def tooLarge : ℚ :=
  2 ^ (1024 : ℤ) - 2 ^ (970 : ℤ)

theorem zpow_eq_mul (k : ℕ) {e f : ℤ} (h : e = k + f) : (2 : ℚ) ^ e = 2 ^ k * 2 ^ f := by
  rw [h, zpow_add₀ two_ne_zero, zpow_natCast]

theorem tooSmall_eq : tooSmall = 1 / 2 * 2 ^ (-1074 : ℤ) := by
  rw [zpow_eq_mul 1 (e := -1074) (f := -1075) (by norm_num), tooSmall]
  ring

theorem tooLarge_eq : tooLarge = (2 ^ 54 - 1) * 2 ^ (970 : ℤ) := by
  rw [tooLarge, zpow_eq_mul 54 (e := 1024) (f := 970) (by norm_num)]
  ring

theorem tooSmall_pos : 0 < tooSmall :=
  zpow_pos two_pos _

theorem tooSmall_lt_tooLarge : tooSmall < tooLarge := by
  have hpos : (0 : ℚ) < 2 ^ (970 : ℤ) := zpow_pos two_pos _
  have hlt : tooSmall < 2 ^ (970 : ℤ) := zpow_lt_zpow_right₀ one_lt_two (by norm_num)
  rw [tooLarge_eq]
  generalize (2 : ℚ) ^ (970 : ℤ) = unit at hpos hlt
  linarith

/-- Every float other than zero is larger than what is rounded to zero. -/
theorem tooSmall_lt_mantissa {m : ℕ} {e : ℤ} (hm : 0 < m) (he : -1074 ≤ e) :
    tooSmall < m * 2 ^ e := by
  have hone : (1 : ℚ) ≤ m := by exact_mod_cast hm
  have hunit : (2 : ℚ) ^ (-1074 : ℤ) ≤ 2 ^ e := zpow_le_zpow_right₀ one_le_two he
  have hpos : (0 : ℚ) < 2 ^ (-1074 : ℤ) := zpow_pos two_pos _
  have hle := mul_le_mul hone hunit hpos.le (Nat.cast_nonneg m)
  rw [tooSmall_eq]
  linarith

/-- A number is rounded to zero up to half of the least unit. -/
theorem rounded_eq_zero_iff (hv : 0 < v) : rounded v = 0 ↔ v ≤ tooSmall := by
  have hunit : (2 : ℚ) ^ (-1074 : ℤ) ≤ 2 ^ target v :=
    zpow_le_zpow_right₀ one_le_two (le_max_right _ _)
  have hzero : rounded v = 0 ↔ v / 2 ^ target v ≤ 1 / 2 := by
    rw [← Nat.le_zero, ← not_lt, lt_rounded_iff hv, ← not_lt]
    norm_num
  rw [hzero, div_le_iff₀ (zpow_pos two_pos _), tooSmall_eq]
  refine ⟨fun h => ?_, fun h => by linarith⟩
  rcases le_div_target hv with hfull | hmin
  · -- With all its bits a number is far above half a unit.
    rw [← div_le_iff₀ (zpow_pos two_pos _)] at h
    linarith
  · rwa [hmin] at h

/-- The largest float is one unit below `2 ^ 1024`, and a number is rounded to that power from
    half a unit below it on. -/
theorem rounded_lt_iff (hv : 0 < v) :
    (rounded v : ℚ) * 2 ^ target v < 2 ^ (1024 : ℤ) ↔ v < tooLarge := by
  have hunit : (0 : ℚ) < 2 ^ target v := zpow_pos two_pos _
  have hpos : (0 : ℚ) < 2 ^ (970 : ℤ) := zpow_pos two_pos _
  rw [tooLarge_eq, zpow_eq_mul 54 (e := 1024) (f := 970) (by norm_num)]
  -- Numbers that are rounded below the last unit are small enough, those above it too large.
  rcases lt_trichotomy (target v) 971 with hlt | heq | hgt
  · have hle : (2 : ℚ) ^ target v ≤ 2 ^ (970 : ℤ) := zpow_le_zpow_right₀ one_le_two (by omega)
    have hr : (rounded v : ℚ) * 2 ^ target v ≤ 2 ^ 53 * 2 ^ target v :=
      mul_le_mul_of_nonneg_right (by exact_mod_cast rounded_le hv) hunit.le
    have hv' := (div_lt_iff₀ hunit).mp (div_target_lt v)
    generalize (2 : ℚ) ^ (970 : ℤ) = unit at *
    refine iff_of_true ?_ ?_ <;> linarith
  · have hdouble : (2 : ℚ) ^ target v = 2 ^ 1 * 2 ^ (970 : ℤ) := zpow_eq_mul 1 (by omega)
    have htop : (rounded v : ℚ) < 2 ^ 53 ↔ v < (2 ^ 53 - 1 / 2) * 2 ^ target v := by
      rw [← div_lt_iff₀ hunit, ← rounded_lt_top_iff hv]
      exact_mod_cast Iff.rfl
    rw [← mul_lt_mul_iff_left₀ hunit] at htop
    rw [hdouble] at htop ⊢
    generalize (2 : ℚ) ^ (970 : ℤ) = unit at *
    refine ⟨fun h => ?_, fun h => ?_⟩
    · linarith [htop.mp (by linarith)]
    · linarith [htop.mpr (by linarith)]
  · have hle : 2 ^ 2 * (2 : ℚ) ^ (970 : ℤ) ≤ 2 ^ target v := by
      rw [← zpow_eq_mul 2 (e := 972) (by norm_num)]
      exact zpow_le_zpow_right₀ one_le_two (by omega)
    have hr : (2 : ℚ) ^ 52 * 2 ^ target v ≤ rounded v * 2 ^ target v := by
      refine mul_le_mul_of_nonneg_right ?_ hunit.le
      exact_mod_cast (le_rounded hv).resolve_right (by omega)
    have hv' := (le_div_iff₀ hunit).mp ((le_div_target hv).resolve_right (by omega))
    generalize (2 : ℚ) ^ (970 : ℤ) = unit at *
    refine iff_of_false ?_ ?_ <;> linarith

/-- The exponent of a settled mantissa is too large from `2 ^ 1024` on. -/
theorem Settled.lt_iff {m : ℕ} {e : ℤ} (hs : Settled m e) :
    (m : ℚ) * 2 ^ e < 2 ^ (1024 : ℤ) ↔ e ≤ 971 := by
  refine ⟨fun h => ?_, fun he => ?_⟩
  · by_contra hmax
    have hm : (2 : ℚ) ^ 52 ≤ m := by
      exact_mod_cast hs.full.resolve_right (by omega)
    have he : (2 : ℚ) ^ (972 : ℤ) ≤ 2 ^ e := zpow_le_zpow_right₀ one_le_two (by omega)
    refine absurd h (not_lt.mpr ?_)
    rw [zpow_eq_mul 52 (e := 1024) (f := 972) (by norm_num)]
    exact mul_le_mul hm he (zpow_nonneg zero_le_two _) (Nat.cast_nonneg m)
  · have hm : (m : ℚ) < 2 ^ 53 := by exact_mod_cast hs.lt
    have he' : (2 : ℚ) ^ e ≤ 2 ^ (971 : ℤ) := zpow_le_zpow_right₀ one_le_two he
    rw [zpow_eq_mul 53 (e := 1024) (f := 971) (by norm_num)]
    exact (mul_le_mul_of_nonneg_left he' (Nat.cast_nonneg m)).trans_lt
      (mul_lt_mul_of_pos_right hm (zpow_pos two_pos _))

end Bounds

/-- What a number that is not negative is rounded to, by its size. -/
inductive RoundsTo (s : Sign) (v : ℚ) : UnpackedFloat → Prop
  | zero : v ≤ tooSmall → RoundsTo s v (.zero s)
  | finite {m : ℕ} {e : ℤ} (hm : 0 < m) : tooSmall < v → v < tooLarge →
      (m : ℚ) * 2 ^ e = rounded v * 2 ^ target v → RoundsTo s v (.finite s m e hm)
  | infinity : tooLarge ≤ v → RoundsTo s v (.infinity s)

theorem roundsTo_nearest (hv : 0 < v) (s : Sign) :
    RoundsTo s v (Float.ofModel (.pack (nearest s v))).toModel.unpack := by
  have hzero := rounded_eq_zero_iff hv
  have hfits := rounded_lt_iff hv
  rcases nearest_cases hv s with ⟨hr, heq⟩ | ⟨m, e, hm, heq, hs, hvalue⟩ <;> rw [heq]
  · rw [Packing.unpack_pack_zero]
    exact .zero (hzero.mp hr)
  · rw [← hvalue, hs.lt_iff] at hfits
    -- Something is left after rounding, so the number was not too small.
    have hlow : tooSmall < v := by
      rw [← not_le, ← hzero]
      intro hr
      rw [hr, Nat.cast_zero, zero_mul] at hvalue
      exact (mantissa_pos hm e).ne' hvalue
    by_cases he : e ≤ 971
    · rw [Packing.unpack_pack hm ⟨hs.lt, hs.le, he, hs.full⟩]
      exact .finite hm hlow (hfits.mp he) hvalue
    · rw [Packing.unpack_pack_infinity hm (by omega)]
      exact .infinity (not_lt.mp (mt hfits.mpr he))

namespace RoundsTo

variable {s : Sign} {a : UnpackedFloat}

theorem ne_notANumber (h : RoundsTo s v a) : a ≠ .notANumber := by
  cases h <;> exact UnpackedFloat.noConfusion

theorem isFinite_iff (h : RoundsTo s v a) : a.isFinite = true ↔ v < tooLarge := by
  cases h with
  | zero hv => exact iff_of_true rfl (hv.trans_lt tooSmall_lt_tooLarge)
  | finite _ _ hv _ => exact iff_of_true rfl hv
  | infinity hv => exact iff_of_false Bool.false_ne_true hv.not_gt

theorem eq_zero_iff (h : RoundsTo s v a) : (∃ t, a = .zero t) ↔ v ≤ tooSmall := by
  cases h with
  | zero hv => exact iff_of_true ⟨s, rfl⟩ hv
  | finite _ hv _ _ => exact iff_of_false (by simp) hv.not_ge
  | infinity hv => exact iff_of_false (by simp) (tooSmall_lt_tooLarge.trans_le hv).not_ge

theorem eq_infinity_iff (h : RoundsTo s v a) (t : Sign) :
    a = .infinity t ↔ s = t ∧ tooLarge ≤ v := by
  cases h with
  | zero hv => simp [(hv.trans_lt tooSmall_lt_tooLarge).not_ge]
  | finite _ _ hv _ => simp [hv.not_ge]
  | infinity hv => simp [hv]

/-- A number that is not too large becomes a float, which is zero only for one that is too
    small. -/
theorem exists_rational {x : Float} (h : RoundsTo .positive v x.toModel.unpack) (hv : 0 ≤ v)
    (hlarge : v < tooLarge) :
    ∃ r, rational? x = some r ∧ 0 ≤ r ∧ r ≤ 2 * v ∧ (r = 0 ↔ v ≤ tooSmall) := by
  generalize hx : x.toModel.unpack = a at h
  cases h with
  | zero hsmall =>
    exact ⟨0, rational?_of_zero hx, le_rfl, by linarith, iff_of_true rfl hsmall⟩
  | @finite m e hm hsmall _ hvalue =>
    have hpos := mantissa_pos hm e
    refine ⟨m * 2 ^ e, ?_, hpos.le, ?_, iff_of_false hpos.ne' hsmall.not_ge⟩
    · rw [rational?_of_finite hx, signum, one_mul]
    · rw [hvalue]
      exact rounded_mul_le (tooSmall_pos.trans hsmall)
  | infinity hinf => exact absurd hlarge hinf.not_gt

end RoundsTo

end Rounding

end ZPlane
