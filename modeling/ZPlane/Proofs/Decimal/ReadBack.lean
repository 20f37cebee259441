import ZPlane.Decimal.Text
import ZPlane.Proofs.Float.Rounding

/-!
# Decimals That Read Back

A float is printed as the shortest decimal that reads back to it. The search tests its
candidates by reading them, so what it finds reads back. What is left to show is that
nothing is lost where it finds nothing: the exact decimal reads back too, because
`2 ^ (-k)` is `5 ^ k * 10 ^ (-k)` and a number that is a float rounds to itself.

A decimal is read as the number that it is. Final zeros may therefore move between its
digits and its exponent.

## Theorems

* `Decimal.unsigned_toFloat`: A decimal reads as an unsigned float, if as a finite one.
* `Decimal.toFloat_shift`: Zeros may move from the exponent into the digits.
* `Decimal.toFloat_exact`: The exact decimal of a float reads back.
* `Decimal.toFloat_shortest`: The shortest decimal of a float reads back.
-/

open Float.Model.UnpackedFloat

namespace ZPlane

namespace Decimal

theorem unsigned_toFloat {d : Decimal} (h : d.toFloat.isFinite = true) : Unsigned d.toFloat :=
  Packing.unsigned_of_pack (Rounding.plain_ofScientific _ _) h

/-- A decimal is read as the number that it is. -/
theorem toFloat_eq {m : ℕ} {e : ℤ} {v : ℚ} (hpos : 0 < m) (hlow : -2048 ≤ e)
    (hhigh : e ≤ 2048) (hv : (m : ℚ) * 10 ^ e = v) :
    toFloat ⟨m, e⟩ = .ofModel (.pack (Rounding.nearest .positive v)) := by
  unfold toFloat Float.Model.ofScientific
  rw [Rounding.ofScientific_eq_nearest hpos hlow hhigh, hv]

/-- Zeros may move from the exponent into the digits, and more of them behind the point. -/
theorem toFloat_shift (m : ℕ) {k j : ℕ} (hk : k ≤ 2048) (hj : j ≤ 2048) :
    toFloat ⟨m * 10 ^ (k + j), -j⟩ = toFloat ⟨m, k⟩ := by
  rcases Nat.eq_zero_or_pos m with rfl | hm
  · simp [toFloat, Float.Model.ofScientific, ofScientific]
  · have hzeros : 0 < m * 10 ^ (k + j) := Nat.mul_pos hm (Nat.pow_pos (by decide))
    have hvalue : ((m * 10 ^ (k + j) : ℕ) : ℚ) * 10 ^ (-j : ℤ) = m * 10 ^ (k : ℤ) := by
      push_cast
      rw [zpow_neg, zpow_natCast, zpow_natCast, pow_add, mul_assoc, mul_assoc,
        mul_inv_cancel₀ (pow_ne_zero j (by norm_num)), mul_one]
    rw [toFloat_eq hzeros (by omega) (by omega) hvalue,
      toFloat_eq hm (by omega) (by omega) rfl]

/-- The exact decimal of a float reads back. -/
theorem toFloat_exact {x : Float} {n : ℕ} {q : ℤ} {h : 0 < n}
    (hx : x.toModel.unpack = .finite .positive n q h) : (exact n q).toFloat = x := by
  have hcanonical := Packing.canonical_of_unpack hx
  have hback : Float.ofModel (.pack (Rounding.nearest .positive (n * 2 ^ q))) = x := by
    rw [Rounding.nearest_canonical _ h hcanonical, ← hx, Packing.ofModel_pack_unpack]
  rw [← hback]
  have hle := hcanonical.le
  unfold exact
  rw [Nat.pow_eq, Nat.pow_eq]
  split
  · next hq =>
    obtain ⟨k, rfl⟩ := Int.eq_ofNat_of_zero_le hq
    refine toFloat_eq (Nat.mul_pos h (Nat.two_pow_pos _)) (by decide) (by decide) ?_
    push_cast
    rw [mul_one, Int.toNat_natCast, zpow_natCast]
  · next hq =>
    obtain ⟨k, rfl⟩ : ∃ k : ℕ, q = -k := ⟨(-q).toNat, by omega⟩
    refine toFloat_eq (Nat.mul_pos h (Nat.pow_pos (by decide))) (by omega) (by omega) ?_
    -- Units of `10 ^ (-k)`, each times `5 ^ k`, are units of `2 ^ (-k)`.
    have hten : (10 : ℚ) ^ k = 2 ^ k * 5 ^ k := by
      rw [← mul_pow]
      norm_num
    push_cast
    rw [neg_neg, Int.toNat_natCast, zpow_neg, zpow_neg, zpow_natCast, zpow_natCast, hten]
    field_simp

theorem abs_eq_self {x : Float} (hx : Unsigned x) : x.abs = x := by
  change Float.ofModel (.pack x.toModel.unpack.abs) = x
  have habs : x.toModel.unpack.abs = x.toModel.unpack := by
    rcases hx with hx | ⟨n, q, h, hx⟩ <;> rw [hx] <;> rfl
  rw [habs, Packing.ofModel_pack_unpack]

/-- The shortest decimal of a float reads back. -/
theorem toFloat_shortest {x : Float} {n : ℕ} {q : ℤ} {h : 0 < n}
    (hx : x.toModel.unpack = .finite .positive n q h) :
    ((exact n q).shortest x).toFloat = x := by
  unfold shortest
  dsimp only
  generalize hfind : List.findSome? _ _ = found
  cases found with
  | none => exact toFloat_exact hx
  | some d =>
    obtain ⟨k, _, hk⟩ := List.exists_of_findSome?_eq_some hfind
    have hd := List.find?_some hk
    exact Packing.eq_of_beq hx hd

end Decimal

end ZPlane
