import Mathlib

/-!
# Floats and Their Words

A float is a word of 64 bits: a sign, eleven bits of exponent and 52 bits of
mantissa. Every operation unpacks its operands into a sign, a mantissa and an
exponent, and packs what comes out.

`Unpacks` lists what a word can unpack to, with the parts of the word it came
from. The range of finite floats reads off that list: a finite float has a mantissa
of 53 bits, or of fewer at the least exponent. So does the sign: a word without a sign
bit unpacks to something without a minus sign.

## Main definitions

* `Packing.Unpacks`: What the parts of a word unpack to.
* `Packing.Canonical`: The mantissas and exponents of finite floats.
* `Unsigned`: A finite float without a minus sign.

## Theorems

* `Packing.unpacks_unpack`: Every word unpacks as listed.
* `Packing.canonical_of_unpack`: Finite floats have canonical parts.
* `Packing.unpack_pack`: Canonical parts are unpacked as they were packed.
* `Packing.eq_of_beq`: A float that is equal to a nonzero finite one is that one.
* `Packing.mul_comm`: The factors of a product of floats can be exchanged.
* `Packing.unsigned_of_pack`: Whatever is packed without a minus sign is unsigned.
* `unsigned_or_eq_of_nonneg`: What is not negative is unsigned, but for one zero.
-/

open Float.Model Float.Model.UnpackedFloat

namespace ZPlane

namespace Packing

/-- What a word with the given parts unpacks to. -/
inductive Unpacks (s : Sign) (e : BitVec 11) (m : BitVec 52) : UnpackedFloat → Prop
  | infinity : e = -1#11 → m = 0#52 → Unpacks s e m (.infinity s)
  | notANumber : e = -1#11 → m ≠ 0#52 → Unpacks s e m .notANumber
  | zero : e = 0#11 → m = 0#52 → Unpacks s e m (.zero s)
  | subnormal {n : Nat} {q : Int} (h : 0 < n) : e = 0#11 → n = m.toNat → q = -1074 →
      Unpacks s e m (.finite s n q h)
  | normal {n : Nat} {q : Int} (h : 0 < n) : 0 < e.toNat → e.toNat < 2047 →
      n = 2 ^ 52 + m.toNat → q = e.toNat - 1075 → Unpacks s e m (.finite s n q h)

theorem unpacks_unpack (b : BitVec Format.binary64.numBits) :
    Unpacks (.ofBitVec (unpackSign b)) (unpackExponent b) (unpackMantissa b)
      (unpack Format.binary64 b) := by
  have hexp : (unpackExponent b).toNat < 2 ^ 11 := (unpackExponent b).isLt
  unfold UnpackedFloat.unpack
  dsimp only
  split
  · -- All bits of the exponent are set.
    next he =>
    split
    · next hm => exact .infinity he hm
    · next hm => exact .notANumber he hm
  · next he =>
    split
    · next he0 =>
      split
      · next hm => exact .zero he0 hm
      · next hm =>
        refine .subnormal _ he0 rfl ?_
        rw [he0]
        rfl
    · next he0 =>
      refine .normal _ ?_ ?_ ?_ rfl
      · refine Nat.pos_of_ne_zero fun h0 => he0 (BitVec.eq_of_toNat_eq h0)
      · have hne : (unpackExponent b).toNat ≠ 2047 := fun h => he (BitVec.eq_of_toNat_eq h)
        omega
      · -- The leading bit is not in the word. It is put before the mantissa.
        rw [BitVec.toNat_append, ← Nat.shiftLeft_add_eq_or_of_lt (unpackMantissa b).isLt]
        rfl

/-- The mantissas and exponents of finite floats. -/
structure Canonical (m : Nat) (e : Int) : Prop where
  lt : m < 2 ^ 53
  le : -1074 ≤ e
  le_max : e ≤ 971
  full : 2 ^ 52 ≤ m ∨ e = -1074

theorem Unpacks.canonical {s s' : Sign} {e : BitVec 11} {m : BitVec 52} {n : Nat} {q : Int}
    {h : 0 < n} (hu : Unpacks s e m (.finite s' n q h)) : Canonical n q := by
  have hlt := m.isLt
  cases hu with
  | subnormal _ he hn hq => exact ⟨by omega, by omega, by omega, .inr hq⟩
  | normal _ hpos hlt hn hq => exact ⟨by omega, by omega, by omega, .inl (by omega)⟩

theorem canonical_of_unpack {x : Float} {s : Sign} {n : Nat} {q : Int} {h : 0 < n}
    (hx : x.toModel.unpack = .finite s n q h) : Canonical n q := by
  have hword := unpacks_unpack x.toModel.toBits.toBitVec
  unfold Float.Model.unpack at hx
  rw [hx] at hword
  exact hword.canonical

theorem Unpacks.eq_of_normal {s : Sign} {e : BitVec 11} {m : BitVec 52} {v : UnpackedFloat}
    (hu : Unpacks s e m v) {n : Nat} {q : Int} (h : 0 < n) (hpos : 0 < e.toNat)
    (hlt : e.toNat < 2047) (hn : n = 2 ^ 52 + m.toNat) (hq : q = e.toNat - 1075) :
    v = .finite s n q h := by
  have htop : (-1#11).toNat = 2047 := rfl
  have hzero : (0#11).toNat = 0 := rfl
  cases hu with
  | infinity he _ => rw [he] at hlt; omega
  | notANumber he _ => rw [he] at hlt; omega
  | zero he _ => rw [he] at hpos; omega
  | subnormal _ he _ _ => rw [he] at hpos; omega
  | normal _ _ _ hn' hq' =>
    subst hn hq hn' hq'
    rfl

theorem Unpacks.eq_of_subnormal {s : Sign} {m : BitVec 52} {v : UnpackedFloat}
    (hu : Unpacks s 0#11 m v) {n : Nat} (h : 0 < n) (hn : n = m.toNat) :
    v = .finite s n (-1074) h := by
  have hm : m ≠ 0#52 := by
    rintro rfl
    exact h.ne' hn
  cases hu with
  | infinity he _ => cases he
  | notANumber he _ => cases he
  | zero _ hm' => exact absurd hm' hm
  | subnormal _ _ hn' hq' =>
    subst hn hn' hq'
    rfl
  | normal _ hpos _ _ _ => cases hpos

/-- What the parts of a word are, the word unpacks to. -/
theorem unpacks_packComponents (s : Sign) (e : BitVec 11) (m : BitVec 52) :
    Unpacks s e m (unpack Format.binary64 (packComponents Format.binary64 s e m)) := by
  have hword := unpacks_unpack (packComponents Format.binary64 s e m)
  rw [unpackSign_packComponents, unpackExponent_packComponents, unpackMantissa_packComponents,
    Sign.ofBitVec_toBitVec] at hword
  exact hword

/-- Canonical parts are unpacked as they were packed. -/
theorem unpack_pack {s : Sign} {n : Nat} {q : Int} (h : 0 < n) (hc : Canonical n q) :
    (Float.ofModel (.pack (.finite s n q h))).toModel.unpack = .finite s n q h := by
  change unpack Format.binary64 (UnpackedFloat.pack Format.binary64 _) = _
  rcases hc with ⟨hlt, hle, hmax, hfull⟩
  -- The exponent is biased so that the least one is packed as one.
  generalize hbiased : (q + (Format.binary64.exponentBias : Int) +
    (Format.binary64.mantissaBitsWithoutImplicit : Int)).toNat = k
  have hk : (k : Int) = q + 1075 := by
    rw [← hbiased]
    change ((q + 1023 + 52).toNat : Int) = _
    omega
  have hfits : ¬ 2 ^ Format.binary64.exponentBits ≤ k + 1 := by
    change ¬ 2 ^ 11 ≤ k + 1
    omega
  unfold UnpackedFloat.pack
  dsimp only
  rw [hbiased, if_neg hfits]
  by_cases hbits : 2 ^ 52 ≤ n
  · have hlow : 52 ≤ n.log2 := (Nat.le_log2 h.ne').mpr hbits
    have hhigh : n.log2 < 53 := (Nat.log2_lt h.ne').mpr hlt
    have hlog : n.log2 + 1 = Format.binary64.mantissaBits := by
      change n.log2 + 1 = 53
      omega
    rw [if_pos hlog]
    have he : (BitVec.ofNat 11 k).toNat = k := by
      rw [BitVec.toNat_ofNat]
      omega
    have hm : (BitVec.ofNat 52 n).toNat = n - 2 ^ 52 := by
      rw [BitVec.toNat_ofNat]
      omega
    refine (unpacks_packComponents s (.ofNat 11 k) (.ofNat 52 n)).eq_of_normal h ?_ ?_ ?_ ?_
    all_goals omega
  · have hlog : n.log2 + 1 ≠ Format.binary64.mantissaBits := by
      have hhigh : n.log2 < 52 := (Nat.log2_lt h.ne').mpr (by omega)
      change n.log2 + 1 ≠ 53
      omega
    have hq : q = -1074 := by omega
    subst hq
    rw [if_neg hlog]
    refine (unpacks_packComponents s 0#11 (.ofNat 52 n)).eq_of_subnormal h ?_
    rw [BitVec.toNat_ofNat]
    omega
/-- Packing what was unpacked gives the float back. -/
theorem ofModel_pack_unpack (x : Float) : Float.ofModel (.pack x.toModel.unpack) = x :=
  Float.ofBits_toBits x

/-- A float that is equal to a nonzero finite one is that one. -/
theorem eq_of_beq {x y : Float} {s : Sign} {n : Nat} {q : Int} {h : 0 < n}
    (hy : y.toModel.unpack = .finite s n q h) (heq : (x == y) = true) : x = y := by
  -- Only the two zeros are equal and not the same.
  rcases (Float.beq_iff_ne_nan_and_eq.mp heq).2.2 with hxy | ⟨-, rfl⟩ | ⟨-, rfl⟩
  · exact hxy
  · cases hy
  · cases hy

theorem sign_mul_comm (s s' : Sign) : s * s' = s' * s := by
  cases s <;> cases s' <;> rfl

/-- The factors of a product of floats can be exchanged. -/
theorem mul_comm (x y : Float) : x * y = y * x := by
  -- The exact product is the same both ways, so it does not matter how it is rounded.
  have hunpacked (u v : UnpackedFloat) :
      UnpackedFloat.mul Format.binary64 u v = UnpackedFloat.mul Format.binary64 v u := by
    cases u <;> cases v <;>
      simp only [UnpackedFloat.mul, sign_mul_comm, Nat.mul_comm, Int.add_comm]
  change Float.ofModel (.pack (UnpackedFloat.mul _ x.toModel.unpack y.toModel.unpack)) = _
  rw [hunpacked]
  rfl

/-- Whether an unpacked float has no minus sign. -/
def Plain : UnpackedFloat → Prop
  | .infinity s => s = .positive
  | .notANumber => True
  | .zero s => s = .positive
  | .finite s _ _ _ => s = .positive

theorem Unpacks.unsigned {e : BitVec 11} {m : BitVec 52} {v : UnpackedFloat}
    (h : Unpacks .positive e m v) (hfinite : v.isFinite = true) :
    v = .zero .positive ∨ ∃ n q h, v = .finite .positive n q h := by
  cases h with
  | infinity _ _ => cases hfinite
  | notANumber _ _ => cases hfinite
  | zero _ _ => exact .inl rfl
  | subnormal h _ _ _ => exact .inr ⟨_, _, h, rfl⟩
  | normal h _ _ _ _ => exact .inr ⟨_, _, h, rfl⟩

theorem unpackSign_pack {u : UnpackedFloat} (hu : Plain u) :
    unpackSign (UnpackedFloat.pack Format.binary64 u) = 0#1 := by
  cases u with
  | notANumber => exact unpackSign_packComponents _ _ _
  | infinity s =>
    rw [Plain] at hu
    subst hu
    exact unpackSign_packComponents _ _ _
  | zero s =>
    rw [Plain] at hu
    subst hu
    exact unpackSign_packComponents _ _ _
  | finite s n q h =>
    rw [Plain] at hu
    subst hu
    -- Overflowed, normal or subnormal, the sign is packed as it is.
    unfold UnpackedFloat.pack
    dsimp only
    split
    · exact unpackSign_packComponents _ _ _
    · split <;> exact unpackSign_packComponents _ _ _

end Packing

/-- A finite float without a minus sign. -/
def Unsigned (x : Float) : Prop :=
  x.toModel.unpack = .zero .positive ∨
    ∃ n q h, x.toModel.unpack = .finite .positive n q h

/-- Whatever is packed without a minus sign is unsigned, if it is finite. -/
theorem Packing.unsigned_of_pack {u : UnpackedFloat} (hu : Plain u)
    (hfinite : (Float.ofModel (.pack u)).isFinite = true) : Unsigned (.ofModel (.pack u)) := by
  have hsign : Sign.ofBitVec (unpackSign (UnpackedFloat.pack Format.binary64 u)) = .positive := by
    rw [unpackSign_pack hu]
    rfl
  have hword := unpacks_unpack (UnpackedFloat.pack Format.binary64 u)
  rw [hsign] at hword
  exact hword.unsigned hfinite

theorem Packing.nonneg_iff {x : Float} :
    0 ≤ x ↔ UnpackedFloat.le (.zero .positive) x.toModel.unpack = true := by
  have hzero : (0 : Float).toModel.unpack = .zero .positive := rfl
  rw [← hzero]
  exact decide_eq_true_iff

namespace Unsigned

variable {x : Float}

theorem isFinite (h : Unsigned x) : x.isFinite = true := by
  change x.toModel.unpack.isFinite = true
  rcases h with h | ⟨n, q, hn, h⟩ <;> rw [h] <;> rfl

theorem nonneg (h : Unsigned x) : 0 ≤ x := by
  rw [Packing.nonneg_iff]
  rcases h with h | ⟨n, q, hn, h⟩ <;> rw [h] <;> rfl

theorem ne_neg_zero (h : Unsigned x) : x ≠ -0.0 := by
  rintro rfl
  rcases h with h | ⟨n, q, hn, h⟩ <;> cases h

end Unsigned

/-- Of the finite floats that are not negative, only one zero has a minus sign. -/
theorem unsigned_or_eq_of_nonneg {x : Float} (hfinite : x.isFinite = true) (h : 0 ≤ x) :
    Unsigned x ∨ x = -0.0 := by
  change x.toModel.unpack.isFinite = true at hfinite
  rw [Packing.nonneg_iff] at h
  have hback := Packing.ofModel_pack_unpack x
  unfold Unsigned
  generalize x.toModel.unpack = u at *
  cases u with
  | notANumber => cases hfinite
  | infinity s => cases hfinite
  | zero s =>
    cases s with
    | positive => exact .inl (.inl rfl)
    | negative => exact .inr hback.symm
  | finite s n q hn =>
    cases s with
    | positive => exact .inl (.inr ⟨n, q, hn, rfl⟩)
    | negative => cases h

end ZPlane
