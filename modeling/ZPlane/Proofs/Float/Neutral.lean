import ZPlane.Proofs.Float.Rounding

/-!
# Zero and One Among Floats

Adding a zero, or multiplying by one, gives back the other operand to the last bit, and so
does every step that an evaluation takes on the way from the text of a number to the number.
The only floats for which this can fail are the zeros, since a sum of zeros may lose a sign.
They are left out: `Nonzero` is a finite float other than zero.

## Main definitions

* `Nonzero`: A finite float other than zero.

## Theorems

* `nonzero_of_isFinite`: A finite float that is not equal to zero.
* `Nonzero.add_zero`, `Nonzero.zero_add`, `Nonzero.sub_zero`, `Nonzero.mul_one`: The other
  operand is what comes out.
* `Nonzero.zero_sub`: A difference from zero is the negative.
* `lt_zero_iff`, `unpack_neg`: Signs and negatives.
* `Unsigned.mul_zero`: A product with zero.
-/

open Float.Model Float.Model.UnpackedFloat

namespace ZPlane

/-- A finite float other than zero. -/
def Nonzero (x : Float) : Prop :=
  ∃ s n q h, x.toModel.unpack = .finite s n q h

theorem nonzero_of_isFinite {x : Float} (hfinite : x.isFinite = true) (hne : (x == 0) = false) :
    Nonzero x := by
  change x.toModel.unpack.isFinite = true at hfinite
  change UnpackedFloat.beq x.toModel.unpack (.zero .positive) = false at hne
  unfold Nonzero
  generalize x.toModel.unpack = u at hfinite hne
  cases u with
  | notANumber => cases hfinite
  | infinity s => cases hfinite
  | zero s => cases hne
  | finite s n q h => exact ⟨s, n, q, h, rfl⟩

/-- Whatever unpacked parts a computation ends with, they are packed into the float that has
    them. -/
theorem Packing.ofModel_pack_of_eq {x : Float} {u : UnpackedFloat} (h : u = x.toModel.unpack) :
    Float.ofModel (.pack u) = x := by
  rw [h, ofModel_pack_unpack]

namespace Nonzero

variable {x : Float}

theorem add_zero (h : Nonzero x) : x + 0 = x := by
  rcases h with ⟨s, n, q, hn, hx⟩
  have hsum : UnpackedFloat.add .binary64 x.toModel.unpack (.zero .positive) =
      x.toModel.unpack := by
    rw [hx]
    rfl
  exact Packing.ofModel_pack_of_eq hsum

theorem zero_add (h : Nonzero x) : 0 + x = x := by
  rcases h with ⟨s, n, q, hn, hx⟩
  have hsum : UnpackedFloat.add .binary64 (.zero .positive) x.toModel.unpack =
      x.toModel.unpack := by
    rw [hx]
    rfl
  exact Packing.ofModel_pack_of_eq hsum

theorem sub_zero (h : Nonzero x) : x - 0 = x := by
  rcases h with ⟨s, n, q, hn, hx⟩
  have hdiff : UnpackedFloat.sub .binary64 x.toModel.unpack (.zero .positive) =
      x.toModel.unpack := by
    rw [hx]
    rfl
  exact Packing.ofModel_pack_of_eq hdiff

/-- A difference from zero is the negative. -/
theorem zero_sub (h : Nonzero x) : 0 - x = -x := by
  rcases h with ⟨s, n, q, hn, hx⟩
  change Float.ofModel (.pack (UnpackedFloat.sub _ (.zero .positive) x.toModel.unpack)) =
    Float.ofModel (.pack x.toModel.unpack.neg)
  rw [hx]
  rfl

theorem mul_one (h : Nonzero x) : x * 1 = x := by
  rcases h with ⟨s, n, q, hn, hx⟩
  have hcanonical := Packing.canonical_of_unpack hx
  have hpos : (0 : ℚ) < n * 2 ^ q := mul_pos (by exact_mod_cast hn) (zpow_pos two_pos q)
  have hsign : s * Sign.positive = s := by cases s <;> rfl
  -- One is `2 ^ 52` units of `2 ^ (-52)`, so the exact product is the same number.
  have hnumber : (n : ℚ) * 2 ^ q / 2 ^ (q + -52) = ((n * 2 ^ 52 : ℕ) : ℚ) := by
    rw [zpow_add₀ two_ne_zero, ← div_div, mul_div_cancel_right₀ _ (zpow_ne_zero q two_ne_zero),
      zpow_neg, div_inv_eq_mul]
    push_cast
    rfl
  have hround : roundWithAccuracy Format.binary64 (s * .positive) (n * 2 ^ 52) (q + -52) .exact =
      .finite s n q hn := by
    rw [hsign, Rounding.roundWithAccuracy_eq_nearest s hpos,
      Rounding.nearest_canonical s hn hcanonical]
    · rw [hnumber, Rounding.extended_natCast]
    · rw [Rounding.target_canonical hn hcanonical]
      omega
  have hone : (1 : Float).toModel.unpack = .finite .positive (2 ^ 52) (-52) (by decide) := rfl
  have hproduct : UnpackedFloat.mul .binary64 x.toModel.unpack (1 : Float).toModel.unpack =
      x.toModel.unpack := by
    rw [hx, hone]
    exact hround
  exact Packing.ofModel_pack_of_eq hproduct

end Nonzero

section Signs

variable {x : Float} {s : Sign} {n : Nat} {q : Int} {h : 0 < n}

theorem lt_zero_iff (hx : x.toModel.unpack = .finite s n q h) : x < 0 ↔ s = .negative := by
  have hmodel : x < 0 ↔ UnpackedFloat.lt x.toModel.unpack (0 : Float).toModel.unpack = true :=
    decide_eq_true_iff
  have hzero : (0 : Float).toModel.unpack = .zero .positive := rfl
  rw [hmodel, hx, hzero]
  cases s with
  | negative => exact iff_of_true rfl rfl
  | positive => exact iff_of_false Bool.false_ne_true Sign.noConfusion

/-- The negative has the other sign and is the same otherwise. -/
theorem unpack_neg (hx : x.toModel.unpack = .finite s n q h) :
    (-x).toModel.unpack = .finite (-s) n q h := by
  change (Float.ofModel (.pack x.toModel.unpack.neg)).toModel.unpack = _
  rw [hx]
  exact Packing.unpack_pack h (Packing.canonical_of_unpack hx)

theorem neg_neg_eq (hx : x.toModel.unpack = .finite s n q h) : - -x = x := by
  have hneg : (-x).toModel.unpack.neg = x.toModel.unpack := by
    rw [unpack_neg hx, hx]
    cases s <;> rfl
  exact Packing.ofModel_pack_of_eq hneg

end Signs

namespace Nonzero

variable {x : Float}

theorem neg (h : Nonzero x) : Nonzero (-x) := by
  rcases h with ⟨s, n, q, hn, hx⟩
  exact ⟨-s, n, q, hn, unpack_neg hx⟩

theorem zero_sub_neg (h : Nonzero x) : 0 - -x = x := by
  rw [h.neg.zero_sub]
  rcases h with ⟨s, n, q, hn, hx⟩
  exact neg_neg_eq hx

/-- Every such float is unsigned, or its negative is. -/
theorem unsigned_or_negative (h : Nonzero x) :
    (Unsigned x ∧ ¬ x < 0) ∨
      ∃ n q hn, x.toModel.unpack = .finite .negative n q hn ∧ Unsigned (-x) ∧ x < 0 := by
  rcases h with ⟨s, n, q, hn, hx⟩
  cases s with
  | positive =>
    refine .inl ⟨.inr ⟨n, q, hn, hx⟩, fun hlt => ?_⟩
    exact Sign.noConfusion ((lt_zero_iff hx).mp hlt)
  | negative =>
    exact .inr ⟨n, q, hn, hx, .inr ⟨n, q, hn, unpack_neg hx⟩, (lt_zero_iff hx).mpr rfl⟩

end Nonzero

/-- Equality of floats can be turned around. -/
theorem beq_symm {x y : Float} (h : (x == y) = true) : (y == x) = true := by
  rcases Float.beq_iff_ne_nan_and_eq.mp h with ⟨hx, hy, hxy | ⟨hx', hy'⟩ | ⟨hx', hy'⟩⟩
  · exact Float.beq_iff_ne_nan_and_eq.mpr ⟨hy, hx, .inl hxy.symm⟩
  · exact Float.beq_iff_ne_nan_and_eq.mpr ⟨hy, hx, .inr (.inr ⟨hy', hx'⟩)⟩
  · exact Float.beq_iff_ne_nan_and_eq.mpr ⟨hy, hx, .inr (.inl ⟨hy', hx'⟩)⟩

theorem beq_self_of_isFinite {x : Float} (h : x.isFinite = true) : (x == x) = true := by
  rw [Float.beq_self_iff]
  rintro rfl
  exact absurd h (by decide)

/-- A zero factor makes a zero, and an unsigned other factor gives it no sign. -/
theorem Unsigned.mul_zero {x : Float} (h : Unsigned x) : x * 0 = 0 := by
  change Float.ofModel (.pack (UnpackedFloat.mul _ x.toModel.unpack (.zero .positive))) = 0
  rcases h with hx | ⟨n, q, hn, hx⟩ <;> rw [hx] <;> rfl

end ZPlane
