import ZPlane.Proofs.Float.Neutral

/-!
# The Numbers That Floats Are

A finite float is a rational number. A sum, difference or product of floats is the rational one,
rounded to a float, so where that is a float already, nothing is rounded and the operation is
exact. All that has to be known about a computation to see that it is exact is then which
numbers come up in it.

The integers up to `2 ^ 53` are floats, so arithmetic on integers is exact as long as none of
its results is larger than that.

## Main definitions

* `rational?`: The number that a float is, if it is finite.
* `Representable`: The numbers that floats are.

## Theorems

* `Rounding.round_eq_nearest`: A mantissa is rounded as the number that it is, in any unit.
* `Rounding.exists_add_eq_normalize`, `Rounding.mul_eq_nearest`: What a sum and a product are
  rounded from.
* `rational?_add`, `rational?_sub`, `rational?_mul`: Operations are exact where their results are
  floats.
* `representable_intCast`: The integers up to `2 ^ 53`.
* `beq_iff_of_rational`, `lt_zero_iff_of_rational`, `zero_lt_iff_of_rational`: Comparisons.
* `rational?_ofInt`: The float of an integer.
-/

open Float.Model Float.Model.UnpackedFloat

namespace ZPlane

/-- The factor that a sign stands for. -/
def signum : Sign → ℚ
  | .negative => -1
  | .positive => 1

theorem signum_neg (s : Sign) : signum (-s) = -signum s := by
  cases s with
  | negative => exact (neg_neg 1).symm
  | positive => rfl

theorem signum_mul (s t : Sign) : signum (s * t) = signum s * signum t := by
  cases s <;> cases t <;> norm_num [signum]

theorem apply_neg (s : Sign) (n : ℤ) : (-s).apply n = -s.apply n := by
  cases s with
  | negative => exact (neg_neg n).symm
  | positive => rfl

theorem cast_apply (s : Sign) (n : ℕ) : ((s.apply n : ℤ) : ℚ) = signum s * n := by
  cases s <;> simp [signum, Sign.apply]

/-- The number that a float is, if it is finite. -/
def rational? (x : Float) : Option ℚ :=
  match x.toModel.unpack with
  | .notANumber => none
  | .infinity _ => none
  | .zero _ => some 0
  | .finite s m e _ => some (signum s * (m * 2 ^ e))

/-- The numbers that floats are. -/
def Representable (v : ℚ) : Prop :=
  ∃ x, rational? x = some v

variable {x y : Float} {u v : ℚ}

theorem rational?_of_zero {s : Sign} (h : x.toModel.unpack = .zero s) : rational? x = some 0 := by
  rw [rational?, h]

theorem rational?_of_finite {s : Sign} {m : ℕ} {e : ℤ} {hm : 0 < m}
    (h : x.toModel.unpack = .finite s m e hm) : rational? x = some (signum s * (m * 2 ^ e)) := by
  rw [rational?, h]

/-- A float that is a number is a zero, or it has a mantissa and an exponent. -/
theorem unpack_of_rational (h : rational? x = some v) :
    (∃ s, x.toModel.unpack = .zero s ∧ v = 0) ∨
      ∃ s m e hm, x.toModel.unpack = .finite s m e hm ∧ v = signum s * (m * 2 ^ e) := by
  unfold rational? at h
  split at h
  · cases h
  · cases h
  · next s hx => exact .inl ⟨s, hx, (Option.some.inj h).symm⟩
  · next s m e hm hx => exact .inr ⟨s, m, e, hm, hx, (Option.some.inj h).symm⟩

theorem mantissa_pos {m : ℕ} (hm : 0 < m) (e : ℤ) : (0 : ℚ) < m * 2 ^ e :=
  mul_pos (by exact_mod_cast hm) (zpow_pos two_pos e)

/-- The sign of a number is the sign of its float. -/
theorem signum_mul_pos_iff {s : Sign} (hv : 0 < v) : 0 < signum s * v ↔ s = .positive := by
  cases s with
  | positive => exact iff_of_true (by rwa [signum, one_mul]) rfl
  | negative =>
    refine iff_of_false ?_ Sign.noConfusion
    rw [signum, neg_one_mul]
    linarith

theorem signum_mul_ne_zero {s : Sign} (hv : 0 < v) : signum s * v ≠ 0 := by
  cases s <;> simp [signum, hv.ne']

section Negation

theorem unpack_neg_of_rational (h : rational? x = some v) :
    (-x).toModel.unpack = x.toModel.unpack.neg := by
  rcases unpack_of_rational h with ⟨s, hx, -⟩ | ⟨s, m, e, hm, hx, -⟩
  · change (Float.ofModel (.pack x.toModel.unpack.neg)).toModel.unpack = _
    rw [hx]
    cases s <;> rfl
  · rw [unpack_neg hx, hx]
    rfl

theorem rational?_neg (h : rational? x = some v) : rational? (-x) = some (-v) := by
  have hneg := unpack_neg_of_rational h
  rcases unpack_of_rational h with ⟨s, hx, rfl⟩ | ⟨s, m, e, hm, hx, rfl⟩ <;> rw [hx] at hneg
  · rw [rational?_of_zero hneg, neg_zero]
  · rw [rational?_of_finite hneg, signum_neg, neg_mul]

theorem Representable.neg (h : Representable v) : Representable (-v) := by
  rcases h with ⟨x, hx⟩
  exact ⟨-x, rational?_neg hx⟩

theorem Representable.of_signum {s : Sign} (h : Representable (signum s * v)) :
    Representable v := by
  cases s with
  | positive => rwa [signum, one_mul] at h
  | negative => simpa [signum] using h.neg

end Negation

theorem rational?_pack_zero (s : Sign) : rational? (.ofModel (.pack (.zero s))) = some 0 := by
  cases s <;> rfl

/-- A number that is a float is rounded to itself. -/
theorem rational?_pack_nearest (hv : 0 < v) (hr : Representable v) (s : Sign) :
    rational? (.ofModel (.pack (Rounding.nearest s v))) = some (signum s * v) := by
  rcases hr with ⟨y, hy⟩
  rcases unpack_of_rational hy with ⟨t, -, rfl⟩ | ⟨t, m, e, hm, hunpack, rfl⟩
  · exact absurd hv (lt_irrefl 0)
  · cases (signum_mul_pos_iff (mantissa_pos hm e)).mp hv
    have hc := Packing.canonical_of_unpack hunpack
    rw [signum, one_mul, Rounding.nearest_canonical s hm hc]
    exact rational?_of_finite (Packing.unpack_pack hm hc)

section Units

variable (m : ℕ) (e t : ℤ)

theorem decreaseExponent_snd : (decreaseExponent m e t).2 = min e t := by
  change e - ((e - t).toNat : ℤ) = min e t
  omega

/-- A finer unit makes the mantissa larger, and the number stays. -/
theorem decreaseExponent_fst :
    ((decreaseExponent m e t).1 : ℚ) * 2 ^ min e t = m * 2 ^ e := by
  change ((m <<< (e - t).toNat : ℕ) : ℚ) * 2 ^ min e t = m * 2 ^ e
  have hsplit : e = (e - t).toNat + min e t := by omega
  rw [Nat.shiftLeft_eq]
  push_cast
  rw [mul_assoc, ← zpow_natCast, ← zpow_add₀ two_ne_zero, ← hsplit]

end Units

/-- An exact mantissa is rounded as the number that it is, if its unit is fine enough. -/
theorem Rounding.roundWithAccuracy_exact {m : ℕ} {e : ℤ} (s : Sign) (hm : 0 < m)
    (he : e ≤ target (m * 2 ^ e)) :
    roundWithAccuracy Format.binary64 s m e .exact = nearest s (m * 2 ^ e) := by
  refine roundWithAccuracy_eq_nearest s (mantissa_pos hm e) ?_ he
  rw [mul_div_cancel_right₀ _ (zpow_ne_zero e two_ne_zero), extended_natCast]

/-- A mantissa is rounded as the number that it is, in any unit. -/
theorem Rounding.round_eq_nearest {m : ℕ} (s : Sign) (hm : 0 < m) (e : ℤ) :
    round Format.binary64 s m e = nearest s (m * 2 ^ e) := by
  have htarget : Format.binary64.targetExponent (totalExponent m e) = target (m * 2 ^ e) := by
    change max ((m.log2 : ℤ) + 1 + e - 53) (-1074) = max (Int.log 2 ((m : ℚ) * 2 ^ e) - 52) (-1074)
    rw [log_mantissa hm]
    omega
  change roundWithAccuracy Format.binary64 s (decreaseExponent m e _).1
    (decreaseExponent m e _).2 .exact = _
  rw [htarget, decreaseExponent_snd]
  have hvalue := decreaseExponent_fst m e (target (m * 2 ^ e))
  generalize (decreaseExponent m e (target (m * 2 ^ e))).1 = n at hvalue
  have hn : 0 < n := by
    rcases Nat.eq_zero_or_pos n with rfl | hn
    · rw [Nat.cast_zero, zero_mul] at hvalue
      exact absurd hvalue (mantissa_pos hm e).ne
    · exact hn
  rw [roundWithAccuracy_exact s hn (by rw [hvalue]; exact min_le_right _ _), hvalue]

/-- A signed mantissa is rounded as the number that it is, in any unit. -/
theorem Rounding.normalize_eq_nearest {n : ℕ} (hn : 0 < n) (s t : Sign) (e : ℤ) :
    UnpackedFloat.normalize Format.binary64 (s.apply n) e t = nearest s (n * 2 ^ e) := by
  unfold UnpackedFloat.normalize
  cases s with
  | negative =>
    rw [Sign.apply, compare_lt_iff_lt.mpr (by omega)]
    dsimp only
    rw [neg_neg, Int.toNat_natCast, round_eq_nearest _ hn]
  | positive =>
    rw [Sign.apply, compare_gt_iff_gt.mpr (by omega)]
    dsimp only
    rw [Int.toNat_natCast, round_eq_nearest _ hn]

/-- An integer other than zero has a sign and a natural. -/
theorem exists_apply_eq {k : ℤ} (hk : k ≠ 0) : ∃ s n, 0 < n ∧ k = Sign.apply s (n : ℕ) := by
  rcases Int.eq_nat_or_neg k with ⟨n, rfl | rfl⟩
  · exact ⟨.positive, n, by omega, rfl⟩
  · exact ⟨.negative, n, by omega, rfl⟩

/-- A signed mantissa in any unit is packed as the number that it is, if that is a float. -/
theorem rational?_pack_normalize {k e : ℤ} (hr : Representable ((k : ℚ) * 2 ^ e)) :
    rational? (.ofModel (.pack (UnpackedFloat.normalize Format.binary64 k e .positive))) =
      some ((k : ℚ) * 2 ^ e) := by
  by_cases hk : k = 0
  · subst hk
    rw [Int.cast_zero, zero_mul]
    exact rational?_pack_zero _
  · rcases exists_apply_eq hk with ⟨s, n, hn, rfl⟩
    rw [cast_apply, mul_assoc] at hr ⊢
    rw [Rounding.normalize_eq_nearest hn]
    exact rational?_pack_nearest (mantissa_pos hn e) hr.of_signum s

section Zeros

variable {s t : Sign} {m : ℕ} {e : ℤ} {hm : 0 < m}

theorem zero_add_eq (hx : x.toModel.unpack = .zero s) (hy : y.toModel.unpack = .finite t m e hm) :
    x + y = y := by
  refine Packing.ofModel_pack_of_eq ?_
  rw [hx, hy]
  rfl

theorem add_zero_eq (hx : x.toModel.unpack = .finite s m e hm) (hy : y.toModel.unpack = .zero t) :
    x + y = x := by
  refine Packing.ofModel_pack_of_eq ?_
  rw [hx, hy]
  rfl

end Zeros

section Mantissas

variable {s t : Sign} {m n : ℕ} {e f : ℤ} {hm : 0 < m} {hn : 0 < n}
  (hx : x.toModel.unpack = .finite s m e hm) (hy : y.toModel.unpack = .finite t n f hn)

include hx hy

/-- A sum is rounded from a whole number of units, the finer ones of its two terms. -/
theorem Rounding.exists_add_eq_normalize : ∃ k : ℤ,
    UnpackedFloat.add Format.binary64 x.toModel.unpack y.toModel.unpack =
      UnpackedFloat.normalize Format.binary64 k (min e f) .positive ∧
    (k : ℚ) * 2 ^ min e f = signum s * (m * 2 ^ e) + signum t * (n * 2 ^ f) := by
  refine ⟨s.apply (decreaseExponent m e (min e f)).1 + t.apply (decreaseExponent n f (min e f)).1,
    by rw [hx, hy]; rfl, ?_⟩
  have hm' := decreaseExponent_fst m e (min e f)
  have hn' := decreaseExponent_fst n f (min e f)
  rw [min_eq_right (min_le_left e f)] at hm'
  rw [min_eq_right (min_le_right e f)] at hn'
  rw [Int.cast_add, cast_apply, cast_apply, add_mul, mul_assoc, mul_assoc, hm', hn']

/-- A product is rounded as the number that it is. -/
theorem Rounding.mul_eq_nearest :
    UnpackedFloat.mul Format.binary64 x.toModel.unpack y.toModel.unpack =
      nearest (s * t) ((m * 2 ^ e) * (n * 2 ^ f)) := by
  have hmn : 0 < m * n := Nat.mul_pos hm hn
  have hvalue : ((m * n : ℕ) : ℚ) * 2 ^ (e + f) = (m * 2 ^ e) * (n * 2 ^ f) := by
    rw [zpow_add₀ two_ne_zero]
    push_cast
    ring
  -- One mantissa has all its bits, or both numbers are in the least unit.
  have htarget : e + f ≤ target ((m * n : ℕ) * 2 ^ (e + f)) := by
    have hfirst := Packing.canonical_of_unpack hx
    have hsecond := Packing.canonical_of_unpack hy
    unfold target
    rw [log_mantissa hmn]
    rcases hfirst.full with hfull | he
    · have : 52 ≤ (m * n).log2 := (Nat.le_log2 hmn.ne').mpr (le_mul_of_le_of_one_le hfull hn)
      omega
    · rcases hsecond.full with hfull | hf
      · have : 52 ≤ (m * n).log2 := (Nat.le_log2 hmn.ne').mpr (le_mul_of_one_le_of_le hm hfull)
        omega
      · omega
  rw [hx, hy, ← hvalue]
  exact roundWithAccuracy_exact _ hmn htarget

end Mantissas

/-- To subtract is to add the negative, also where zeros have signs. -/
theorem sub_eq_add_neg_unpacked (a b : UnpackedFloat) :
    UnpackedFloat.sub Format.binary64 a b = UnpackedFloat.add Format.binary64 a b.neg := by
  cases a <;> cases b <;> try rfl
  simp only [UnpackedFloat.sub, UnpackedFloat.add, UnpackedFloat.neg, apply_neg, sub_eq_add_neg]

section Operations

variable (hx : rational? x = some u) (hy : rational? y = some v)

include hx hy

/-- A sum is exact where it is a float. -/
theorem rational?_add (hr : Representable (u + v)) : rational? (x + y) = some (u + v) := by
  rcases unpack_of_rational hx with ⟨s, hx', rfl⟩ | ⟨s, m, e, hm, hx', rfl⟩ <;>
    rcases unpack_of_rational hy with ⟨t, hy', rfl⟩ | ⟨t, n, f, hn, hy', rfl⟩
  · change rational? (.ofModel (.pack (UnpackedFloat.add _ x.toModel.unpack y.toModel.unpack))) = _
    rw [hx', hy', add_zero]
    cases s <;> cases t <;> exact rational?_pack_zero _
  · rw [zero_add_eq hx' hy', zero_add, hy]
  · rw [add_zero_eq hx' hy', add_zero, hx]
  · rcases Rounding.exists_add_eq_normalize hx' hy' with ⟨k, hsum, hvalue⟩
    change rational? (.ofModel (.pack (UnpackedFloat.add _ x.toModel.unpack y.toModel.unpack))) = _
    rw [hsum]
    rw [← hvalue] at hr ⊢
    exact rational?_pack_normalize hr

/-- A difference is exact where it is a float. -/
theorem rational?_sub (hr : Representable (u - v)) : rational? (x - y) = some (u - v) := by
  have hsub : x - y = x + -y := by
    change Float.ofModel (.pack (UnpackedFloat.sub _ x.toModel.unpack y.toModel.unpack)) =
      Float.ofModel (.pack (UnpackedFloat.add _ x.toModel.unpack (-y).toModel.unpack))
    rw [sub_eq_add_neg_unpacked, unpack_neg_of_rational hy]
  rw [sub_eq_add_neg] at hr ⊢
  rw [hsub]
  exact rational?_add hx (rational?_neg hy) hr

/-- A product is exact where it is a float. -/
theorem rational?_mul (hr : Representable (u * v)) : rational? (x * y) = some (u * v) := by
  change rational? (.ofModel (.pack (UnpackedFloat.mul _ x.toModel.unpack y.toModel.unpack))) = _
  rcases unpack_of_rational hx with ⟨s, hx', rfl⟩ | ⟨s, m, e, hm, hx', rfl⟩ <;>
    rcases unpack_of_rational hy with ⟨t, hy', rfl⟩ | ⟨t, n, f, hn, hy', rfl⟩
  · rw [hx', hy', mul_zero]
    exact rational?_pack_zero _
  · rw [hx', hy', zero_mul]
    exact rational?_pack_zero _
  · rw [hx', hy', mul_zero]
    exact rational?_pack_zero _
  · have hproduct : signum s * (m * 2 ^ e) * (signum t * (n * 2 ^ f)) =
        signum (s * t) * ((m * 2 ^ e) * (n * 2 ^ f)) := by
      rw [signum_mul]
      ring
    rw [hproduct] at hr ⊢
    rw [Rounding.mul_eq_nearest hx' hy']
    exact rational?_pack_nearest (mul_pos (mantissa_pos hm e) (mantissa_pos hn f)) hr.of_signum _

end Operations

section Integers

theorem representable_of_canonical {m : ℕ} {e : ℤ} (hm : 0 < m) (hc : Packing.Canonical m e) :
    Representable (m * 2 ^ e) := by
  refine ⟨.ofModel (.pack (.finite .positive m e hm)), ?_⟩
  rw [rational?_of_finite (Packing.unpack_pack hm hc), signum, one_mul]

theorem representable_natCast {n : ℕ} (h : n ≤ 2 ^ 53) : Representable n := by
  rcases Nat.eq_zero_or_pos n with rfl | hn
  · exact ⟨0, rfl⟩
  rcases h.eq_or_lt with rfl | hlt
  · -- One bit too many, but the last one is zero.
    have hhalf := representable_of_canonical (m := 2 ^ 52) (e := 1) (by norm_num)
      ⟨by norm_num, by norm_num, by norm_num, .inl le_rfl⟩
    norm_num at hhalf ⊢
    exact hhalf
  · -- The mantissa is shifted to the left until it has 53 bits.
    have hlog : n.log2 < 53 := (Nat.log2_lt hn.ne').mpr hlt
    obtain ⟨j, hj⟩ : ∃ j, n.log2 + j = 52 := ⟨52 - n.log2, by omega⟩
    have hlow : 2 ^ 52 ≤ n * 2 ^ j := by
      rw [← hj, pow_add]
      exact Nat.mul_le_mul_right _ (Nat.log2_self_le hn.ne')
    have hhigh : n * 2 ^ j < 2 ^ 53 := by
      have hsplit : 53 = n.log2 + 1 + j := by omega
      rw [hsplit, pow_add]
      exact Nat.mul_lt_mul_of_pos_right Nat.lt_log2_self (Nat.two_pow_pos j)
    have hshifted := representable_of_canonical (m := n * 2 ^ j) (e := -j) (by omega)
      ⟨hhigh, by omega, by omega, .inl hlow⟩
    have hvalue : ((n * 2 ^ j : ℕ) : ℚ) * 2 ^ (-j : ℤ) = n := by
      push_cast
      rw [zpow_neg, zpow_natCast, mul_assoc, mul_inv_cancel₀ (pow_ne_zero j two_ne_zero), mul_one]
    rwa [hvalue] at hshifted

/-- The integers up to `2 ^ 53` are floats. -/
theorem representable_intCast {k : ℤ} (h : |k| ≤ 2 ^ 53) : Representable k := by
  rcases abs_le.mp h with ⟨hlow, hhigh⟩
  rcases Int.eq_nat_or_neg k with ⟨n, rfl | rfl⟩
  · rw [Int.cast_natCast]
    exact representable_natCast (by omega)
  · rw [Int.cast_neg, Int.cast_natCast]
    exact (representable_natCast (by omega)).neg

theorem rational?_pack_ofNat {n : ℕ} (h : n ≤ 2 ^ 53) :
    rational? (.ofModel (.pack (UnpackedFloat.ofNat Format.binary64 n))) = some (n : ℚ) := by
  have hvalue : (((n : ℤ) : ℚ) * 2 ^ (0 : ℤ)) = n := by
    rw [zpow_zero, mul_one, Int.cast_natCast]
  have hr := representable_natCast h
  rw [← hvalue] at hr ⊢
  exact rational?_pack_normalize hr

theorem rational?_one : rational? 1 = some 1 := by
  have hone : (1 : Float).toModel.unpack = .finite .positive (2 ^ 52) (-52) (by decide) := rfl
  rw [rational?_of_finite hone]
  norm_num [signum]

theorem rational?_ofNat {n : ℕ} (h : n ≤ 2 ^ 53) : rational? (.ofNat n) = some (n : ℚ) := by
  have hr := representable_natCast h
  change rational? (Float.ofScientific n false 0) = _
  unfold Float.ofScientific
  split
  · -- Small naturals go through a word, and are multiplied by one.
    next hlt =>
    have hword : n.toUInt64.toNat = n := Nat.mod_eq_of_lt (by omega)
    have hfloat : rational? n.toUInt64.toFloat = some (n : ℚ) := by
      change rational? (.ofModel (.pack (UnpackedFloat.ofNat Format.binary64 n.toUInt64.toNat))) = _
      rw [hword]
      exact rational?_pack_ofNat h
    have hproduct := rational?_mul hfloat rational?_one (by rwa [mul_one])
    rwa [mul_one] at hproduct
  · next hge =>
    have hn : 0 < n := by omega
    change rational? (.ofModel (.pack (UnpackedFloat.ofScientific Format.binary64 n 0))) = _
    rw [Rounding.ofScientific_eq_nearest hn (by norm_num) (by norm_num), zpow_zero, mul_one,
      rational?_pack_nearest (by exact_mod_cast hn) hr, signum, one_mul]

/-- The float of an integer is the integer, up to `2 ^ 53`. -/
theorem rational?_ofInt {k : ℤ} (h : |k| ≤ 2 ^ 53) : rational? (.ofInt k) = some (k : ℚ) := by
  rcases abs_le.mp h with ⟨hlow, hhigh⟩
  cases k with
  | ofNat n =>
    rw [Int.ofNat_eq_natCast] at hhigh ⊢
    rw [Int.cast_natCast]
    exact rational?_ofNat (by omega)
  | negSucc n =>
    rw [Int.negSucc_eq, Int.cast_neg]
    exact_mod_cast rational?_neg (rational?_ofNat (n := n + 1) (by omega))

end Integers

section Comparisons

/-- A number is a float in one way only. -/
theorem finite_inj {s t : Sign} {m n : ℕ} {e f : ℤ} (hm : 0 < m) (hn : 0 < n)
    (hc : Packing.Canonical m e) (hc' : Packing.Canonical n f)
    (h : signum s * (m * 2 ^ e) = signum t * (n * 2 ^ f)) : s = t ∧ m = n ∧ e = f := by
  have hsign : s = .positive ↔ t = .positive := by
    rw [← signum_mul_pos_iff (mantissa_pos hm e), h, signum_mul_pos_iff (mantissa_pos hn f)]
  have hst : s = t := by
    cases s <;> cases t <;> simp_all
  subst hst
  have hsignum : signum s ≠ 0 := by cases s <;> norm_num [signum]
  have hvalue := mul_left_cancel₀ hsignum h
  -- The number tells at which exponent it is rounded, and then the mantissa.
  have he : e = f := by
    rw [← Rounding.target_canonical hm hc, hvalue, Rounding.target_canonical hn hc']
  subst he
  have hcast : (m : ℚ) = n := mul_right_cancel₀ (zpow_ne_zero e two_ne_zero) hvalue
  exact ⟨rfl, by exact_mod_cast hcast, rfl⟩

/-- Floats are equal if they are the same number. -/
theorem beq_iff_of_rational (hx : rational? x = some u) (hy : rational? y = some v) :
    (x == y) = true ↔ u = v := by
  rcases unpack_of_rational hx with ⟨s, hx', rfl⟩ | ⟨s, m, e, hm, hx', rfl⟩ <;>
    rcases unpack_of_rational hy with ⟨t, hy', rfl⟩ | ⟨t, n, f, hn, hy', rfl⟩
  · refine iff_of_true ?_ rfl
    change UnpackedFloat.beq x.toModel.unpack y.toModel.unpack = true
    rw [hx', hy']
    rfl
  · refine iff_of_false ?_ (signum_mul_ne_zero (mantissa_pos hn f)).symm
    change ¬ UnpackedFloat.beq x.toModel.unpack y.toModel.unpack = true
    rw [hx', hy']
    cases t <;> exact Bool.false_ne_true
  · refine iff_of_false ?_ (signum_mul_ne_zero (mantissa_pos hm e))
    change ¬ UnpackedFloat.beq x.toModel.unpack y.toModel.unpack = true
    rw [hx', hy']
    cases s <;> exact Bool.false_ne_true
  · refine ⟨fun heq => ?_, fun heq => ?_⟩
    · cases Packing.eq_of_beq hy' heq
      exact Option.some.inj (hx.symm.trans hy)
    · rcases finite_inj hm hn (Packing.canonical_of_unpack hx') (Packing.canonical_of_unpack hy')
        heq with ⟨rfl, rfl, rfl⟩
      have hxy : x = y := by
        rw [← Packing.ofModel_pack_unpack x, hx', ← hy', Packing.ofModel_pack_unpack]
      rw [hxy]
      refine beq_self_of_isFinite ?_
      change y.toModel.unpack.isFinite = true
      rw [hy']
      rfl

theorem lt_iff_unpack :
    x < y ↔ UnpackedFloat.lt x.toModel.unpack y.toModel.unpack = true :=
  decide_eq_true_iff

theorem lt_zero_iff_of_rational (h : rational? x = some v) : x < 0 ↔ v < 0 := by
  rcases unpack_of_rational h with ⟨s, hx, rfl⟩ | ⟨s, m, e, hm, hx, rfl⟩
  · refine iff_of_false ?_ (lt_irrefl 0)
    rw [lt_iff_unpack, hx]
    exact Bool.false_ne_true
  · have hpos := mantissa_pos hm e
    rw [lt_zero_iff hx]
    cases s with
    | negative => exact iff_of_true rfl (by rw [signum, neg_one_mul]; linarith)
    | positive => exact iff_of_false Sign.noConfusion (by rw [signum, one_mul]; linarith)

theorem zero_lt_iff_of_rational (h : rational? x = some v) : 0 < x ↔ 0 < v := by
  have hzero : (0 : Float).toModel.unpack = .zero .positive := rfl
  rw [lt_iff_unpack, hzero]
  rcases unpack_of_rational h with ⟨s, hx, rfl⟩ | ⟨s, m, e, hm, hx, rfl⟩ <;> rw [hx]
  · exact iff_of_false Bool.false_ne_true (lt_irrefl 0)
  · rw [signum_mul_pos_iff (mantissa_pos hm e)]
    cases s with
    | negative => exact iff_of_false Bool.false_ne_true Sign.noConfusion
    | positive => exact iff_of_true rfl rfl

end Comparisons

end ZPlane
