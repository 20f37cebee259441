import ZPlane.Proofs.Float.Range

/-!
# Zeros, Infinities and NaN

NaN comes from an operation on numbers in a few ways only: a sum of infinities of different signs,
a product of a zero and an infinity, and a quotient of two zeros or of two infinities. Zeros and
infinities in turn come from results that are too small or too large. So whether a formula gives
NaN is a question about the sizes of the numbers in it.

Products of finite floats can be too small or too large. Sums can only be too large, since every
float is a multiple of the least unit: the sum of two floats is zero only if it is zero exactly.

## Theorems

* `isNaN_add_iff`, `isNaN_sub_iff`, `isNaN_div_iff`: When an operation gives NaN.
* `exists_roundsTo_mul`, `exists_roundsTo_add`: Products and sums of floats are rounded by their
  sizes.
* `mul_eq_infinity_iff`: When a product is infinite.
* `isFinite_add_iff`, `add_beq_zero_iff`: When a sum is finite, and when it is zero.
* `roundsTo_square`: Squares have no minus sign.
-/

open Float.Model Float.Model.UnpackedFloat

namespace ZPlane

open Rounding

variable {x y : Float} {u v : ℚ}

section Classes

theorem isNaN_iff_unpack : x.isNaN = true ↔ x.toModel.unpack = .notANumber :=
  UnpackedFloat.isNaN_iff

theorem isInf_iff_unpack : x.isInf = true ↔ ∃ s, x.toModel.unpack = .infinity s := by
  change x.toModel.unpack.isInf = true ↔ _
  cases x.toModel.unpack <;> simp [UnpackedFloat.isInf]

theorem beq_zero_iff_unpack : (x == 0) = true ↔ ∃ s, x.toModel.unpack = .zero s := by
  change UnpackedFloat.beq x.toModel.unpack (.zero .positive) = true ↔ _
  cases x.toModel.unpack with
  | zero s => exact iff_of_true rfl ⟨s, rfl⟩
  | notANumber => exact iff_of_false Bool.false_ne_true (by simp)
  | infinity s => cases s <;> exact iff_of_false Bool.false_ne_true (by simp)
  | finite s m e hm => cases s <;> exact iff_of_false Bool.false_ne_true (by simp)

theorem isFinite_of_beq_zero (h : (x == 0) = true) : x.isFinite = true := by
  rcases beq_zero_iff_unpack.mp h with ⟨s, hs⟩
  change x.toModel.unpack.isFinite = true
  rw [hs]
  rfl

theorem isInf_of_isFinite (h : x.isFinite = true) : x.isInf = false := by
  change x.toModel.unpack.isFinite = true at h
  refine Bool.eq_false_iff.mpr fun hinf => ?_
  rcases isInf_iff_unpack.mp hinf with ⟨s, hs⟩
  rw [hs] at h
  cases h

end Classes

section Numbers

theorem roundWithAccuracy_ne_notANumber (s : Sign) (m : ℕ) (e : ℤ) (acc : Accuracy) :
    roundWithAccuracy Format.binary64 s m e acc ≠ .notANumber := by
  unfold roundWithAccuracy
  dsimp only
  split <;> exact UnpackedFloat.noConfusion

theorem normalize_ne_notANumber (k e : ℤ) (s : Sign) :
    UnpackedFloat.normalize Format.binary64 k e s ≠ .notANumber := by
  unfold UnpackedFloat.normalize
  split
  · exact roundWithAccuracy_ne_notANumber _ _ _ _
  · exact UnpackedFloat.noConfusion
  · exact roundWithAccuracy_ne_notANumber _ _ _ _

theorem add_eq_notANumber_iff (a b : UnpackedFloat) :
    UnpackedFloat.add Format.binary64 a b = .notANumber ↔
      a = .notANumber ∨ b = .notANumber ∨ ∃ s, a = .infinity s ∧ b = .infinity (-s) := by
  cases a <;> cases b <;> simp only [UnpackedFloat.add]
  case infinity.infinity s t => cases s <;> cases t <;> simp <;> rfl
  case zero.zero s t => cases s <;> cases t <;> simp
  case finite.finite => simp [normalize_ne_notANumber]
  all_goals simp

theorem unpack_pack_eq_notANumber_iff (a : UnpackedFloat) :
    (Float.ofModel (.pack a)).toModel.unpack = .notANumber ↔ a = .notANumber := by
  rw [← isNaN_iff_unpack, Packing.isNaN_pack, UnpackedFloat.isNaN_iff]

/-- A sum is NaN if one of its terms is, or if they are infinities of different signs. -/
theorem isNaN_add_iff : (x + y).isNaN = true ↔
    x.isNaN = true ∨ y.isNaN = true ∨
      ∃ s, x.toModel.unpack = .infinity s ∧ y.toModel.unpack = .infinity (-s) := by
  simp only [isNaN_iff_unpack]
  exact (unpack_pack_eq_notANumber_iff _).trans (add_eq_notANumber_iff _ _)

/-- A difference is NaN if one of its terms is, or if they are infinities of the same sign. -/
theorem isNaN_sub_iff : (x - y).isNaN = true ↔
    x.isNaN = true ∨ y.isNaN = true ∨
      ∃ s, x.toModel.unpack = .infinity s ∧ y.toModel.unpack = .infinity s := by
  have hneg (s : Sign) : - -s = s := by cases s <;> rfl
  have hsign (s t : Sign) : -t = -s ↔ t = s :=
    ⟨fun h => by rw [← hneg t, h, hneg], fun h => by rw [h]⟩
  simp only [isNaN_iff_unpack]
  refine (unpack_pack_eq_notANumber_iff _).trans ?_
  -- To subtract an infinity is to add the other one.
  rw [sub_eq_add_neg_unpacked, add_eq_notANumber_iff]
  cases y.toModel.unpack <;> simp [UnpackedFloat.neg, hsign]

/-- A quotient is NaN if one of its operands is, if both are zero or if both are infinite. -/
theorem isNaN_div_iff : (x / y).isNaN = true ↔
    x.isNaN = true ∨ y.isNaN = true ∨ (x == 0) = true ∧ (y == 0) = true ∨
      x.isInf = true ∧ y.isInf = true := by
  simp only [isNaN_iff_unpack, beq_zero_iff_unpack, isInf_iff_unpack]
  refine (unpack_pack_eq_notANumber_iff _).trans ?_
  generalize x.toModel.unpack = a
  generalize y.toModel.unpack = b
  -- Where both operands have a mantissa the quotient is rounded, which ends with a number.
  cases a <;> cases b <;> simp [UnpackedFloat.div, roundWithAccuracy_ne_notANumber]

/-- The terms of a finite sum are finite. -/
theorem isFinite_of_add (h : (x + y).isFinite = true) : x.isFinite = true ∧ y.isFinite = true := by
  have hadd := Packing.isFinite_of_pack h
  change x.toModel.unpack.isFinite = true ∧ y.toModel.unpack.isFinite = true
  generalize x.toModel.unpack = a at hadd
  generalize y.toModel.unpack = b at hadd
  cases a <;> cases b
  case infinity.infinity s t => cases s <;> cases t <;> cases hadd
  all_goals simp_all [UnpackedFloat.add, UnpackedFloat.isFinite]

end Numbers

section Sizes

theorem abs_signum_mul (s : Sign) (v : ℚ) : |signum s * v| = |v| := by
  cases s <;> simp [signum]

theorem roundsTo_pack_zero (s : Sign) :
    RoundsTo s |0| (Float.ofModel (.pack (.zero s))).toModel.unpack := by
  rw [Packing.unpack_pack_zero, abs_zero]
  exact .zero tooSmall_pos.le

/-- A float other than zero is rounded to itself. -/
theorem roundsTo_of_unpack {s : Sign} {m : ℕ} {e : ℤ} {hm : 0 < m}
    (hx : x.toModel.unpack = .finite s m e hm) :
    tooSmall < |signum s * (m * 2 ^ e)| ∧
      RoundsTo s |signum s * (m * 2 ^ e)| x.toModel.unpack := by
  have hc := Packing.canonical_of_unpack hx
  have hround := roundsTo_nearest (mantissa_pos hm e) s
  rw [nearest_canonical s hm hc, ← hx, Packing.ofModel_pack_unpack] at hround
  rw [abs_signum_mul, abs_of_pos (mantissa_pos hm e)]
  exact ⟨tooSmall_lt_mantissa hm hc.le, hround⟩

/-- A square is rounded as the number that it is, without a minus sign. -/
theorem roundsTo_square (hx : rational? x = some u) :
    RoundsTo .positive (u ^ 2) (x * x).toModel.unpack := by
  change RoundsTo _ _
    (Float.ofModel (.pack (UnpackedFloat.mul _ x.toModel.unpack x.toModel.unpack))).toModel.unpack
  have hsign (s : Sign) : s * s = .positive := by cases s <;> rfl
  rcases unpack_of_rational hx with ⟨s, hx', rfl⟩ | ⟨s, m, e, hm, hx', rfl⟩
  · rw [hx', UnpackedFloat.mul, hsign, Packing.unpack_pack_zero]
    exact .zero (by simpa using tooSmall_pos.le)
  · have hpos := mantissa_pos hm e
    have hvalue : (signum s * (m * 2 ^ e)) ^ 2 = (m * 2 ^ e) * ((m : ℚ) * 2 ^ e) := by
      rw [← sq_abs, abs_signum_mul, abs_of_pos hpos, sq]
    rw [mul_eq_nearest hx' hx', hsign, hvalue]
    exact roundsTo_nearest (mul_pos hpos hpos) _

variable (hx : rational? x = some u) (hy : rational? y = some v)

include hx hy

/-- A product of floats is rounded as the number that it is. -/
theorem exists_roundsTo_mul :
    ∃ s, signum s * |u * v| = u * v ∧ RoundsTo s |u * v| (x * y).toModel.unpack := by
  change ∃ s, _ ∧ RoundsTo s _
    (Float.ofModel (.pack (UnpackedFloat.mul _ x.toModel.unpack y.toModel.unpack))).toModel.unpack
  rcases unpack_of_rational hx with ⟨s, hx', rfl⟩ | ⟨s, m, e, hm, hx', rfl⟩ <;>
    rcases unpack_of_rational hy with ⟨t, hy', rfl⟩ | ⟨t, n, f, hn, hy', rfl⟩
  · rw [hx', hy', mul_zero]
    exact ⟨s * t, by simp, roundsTo_pack_zero _⟩
  · rw [hx', hy', zero_mul]
    exact ⟨s * t, by simp, roundsTo_pack_zero _⟩
  · rw [hx', hy', mul_zero]
    exact ⟨s * t, by simp, roundsTo_pack_zero _⟩
  · have hpos := mul_pos (mantissa_pos hm e) (mantissa_pos hn f)
    have hproduct : signum s * (m * 2 ^ e) * (signum t * (n * 2 ^ f)) =
        signum (s * t) * ((m * 2 ^ e) * (n * 2 ^ f)) := by
      rw [signum_mul]
      ring
    rw [mul_eq_nearest hx' hy', hproduct, abs_signum_mul, abs_of_pos hpos]
    exact ⟨s * t, rfl, roundsTo_nearest hpos _⟩

/-- So is a sum of floats, and unless it is zero it is not too small. -/
theorem exists_roundsTo_add :
    (u + v ≠ 0 → tooSmall < |u + v|) ∧ ∃ s, RoundsTo s |u + v| (x + y).toModel.unpack := by
  rcases unpack_of_rational hx with ⟨s, hx', rfl⟩ | ⟨s, m, e, hm, hx', rfl⟩ <;>
    rcases unpack_of_rational hy with ⟨t, hy', rfl⟩ | ⟨t, n, f, hn, hy', rfl⟩
  · change _ ∧ ∃ s, RoundsTo s _
      (Float.ofModel (.pack (UnpackedFloat.add _ x.toModel.unpack y.toModel.unpack))).toModel.unpack
    rw [hx', hy', add_zero]
    refine ⟨fun h => absurd rfl h, ?_⟩
    cases s <;> cases t <;> exact ⟨_, roundsTo_pack_zero _⟩
  · rw [zero_add_eq hx' hy', zero_add]
    exact ⟨fun _ => (roundsTo_of_unpack hy').1, t, (roundsTo_of_unpack hy').2⟩
  · rw [add_zero_eq hx' hy', add_zero]
    exact ⟨fun _ => (roundsTo_of_unpack hx').1, s, (roundsTo_of_unpack hx').2⟩
  · rcases exists_add_eq_normalize hx' hy' with ⟨k, hsum, hvalue⟩
    change _ ∧ ∃ s, RoundsTo s _
      (Float.ofModel (.pack (UnpackedFloat.add _ x.toModel.unpack y.toModel.unpack))).toModel.unpack
    rw [hsum, ← hvalue]
    by_cases hk : k = 0
    · subst hk
      rw [Int.cast_zero, zero_mul]
      exact ⟨fun h => absurd rfl h, .positive, roundsTo_pack_zero _⟩
    · -- At least one of the finer units is left, and no unit of a float is too small.
      rcases exists_apply_eq hk with ⟨r, i, hi, rfl⟩
      have hmin : -1074 ≤ min e f :=
        le_min (Packing.canonical_of_unpack hx').le (Packing.canonical_of_unpack hy').le
      rw [cast_apply, mul_assoc, abs_signum_mul, abs_of_pos (mantissa_pos hi _),
        normalize_eq_nearest hi]
      exact ⟨fun _ => tooSmall_lt_mantissa hi hmin, r, roundsTo_nearest (mantissa_pos hi _) r⟩

theorem isNaN_mul_of_rational : (x * y).isNaN = false := by
  rcases exists_roundsTo_mul hx hy with ⟨s, -, h⟩
  exact Bool.eq_false_iff.mpr fun hnan => h.ne_notANumber (isNaN_iff_unpack.mp hnan)

/-- A product is infinite if it is too large, and has the sign of the exact one. -/
theorem mul_eq_infinity_iff (s : Sign) :
    (x * y).toModel.unpack = .infinity s ↔ tooLarge ≤ signum s * (u * v) := by
  rcases exists_roundsTo_mul hx hy with ⟨t, hvalue, h⟩
  rw [h.eq_infinity_iff]
  by_cases hst : t = s
  · subst hst
    have hsame : signum t * (u * v) = |u * v| := by
      rw [← hvalue]
      cases t <;> simp [signum]
    rw [hsame, and_iff_right rfl]
  · -- With the other sign in front the exact product is negative, so it is not too large.
    have hother : signum s * (u * v) = -|u * v| := by
      rw [← hvalue]
      cases s <;> cases t <;> simp_all [signum]
    have hpos := tooSmall_pos.trans tooSmall_lt_tooLarge
    refine iff_of_false (fun h => hst h.1) ?_
    linarith [abs_nonneg (u * v)]

theorem isFinite_add_iff : (x + y).isFinite = true ↔ |u + v| < tooLarge := by
  rcases exists_roundsTo_add hx hy with ⟨-, s, h⟩
  exact h.isFinite_iff

/-- A sum of floats is zero only if it is zero exactly. -/
theorem add_beq_zero_iff : (x + y == 0) = true ↔ u + v = 0 := by
  rcases exists_roundsTo_add hx hy with ⟨hsmall, s, h⟩
  rw [beq_zero_iff_unpack, h.eq_zero_iff]
  refine ⟨fun hle => by_contra fun hne => (hsmall hne).not_ge hle, fun hzero => ?_⟩
  rw [hzero, abs_zero]
  exact tooSmall_pos.le

end Sizes

end ZPlane
