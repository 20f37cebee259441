import ZPlane.Proofs.Decimal.ReadBack
import ZPlane.Proofs.Token.Longest

/-!
# Numerals of Floats

A numeral that is made of digits is one token where the text behind it stops it, and so a
number can be spelled. Every finite float has such a numeral: its exact decimal, written out
without an exponent. A numeral has no sign, so the only float that it gets wrong among those
that are not negative is the zero with a minus sign.

## Main definitions

* `Numeral.ofFloat`: The exact decimal of a float as a numeral.

## Theorems

* `Token.Spells.numeral`: A numeral spells its number.
* `Numeral.value_ofFloat`: The numeral of an unsigned float denotes it.
* `Numeral.value_ofFloat_of_nonneg`: A zero with a minus sign is denoted without it.
-/

namespace ZPlane

namespace Token

/-- A numeral in front of a spelling is one more token, if it is finite and stops there. -/
theorem Spells.numeral {n : Numeral} {rest : List Char} {ks : List Kind} (h : n.Digital)
    (hfinite : n.value.isFinite = true) (hstops : n.Stops rest) (hrest : Spells rest ks) :
    Spells (n.chars ++ rest) (.number n.value :: ks) := by
  rcases hrest with ⟨ts, hts, rfl⟩
  -- The tokens of the rest are those that it has on its own, moved behind the numeral.
  refine ⟨_, .numeral h hfinite hstops (hts.move n.chars.length), ?_⟩
  have hne : (ts.map fun t : Token => { t with column := t.column + n.chars.length }) ≠ [] := by
    simpa using hts.ne_nil
  rw [List.dropLast_cons_of_ne_nil hne, List.map_cons, kinds_move]

end Token

namespace Numeral

/-- The exact decimal of a finite float as a numeral, without the sign. -/
def ofFloat (x : Float) : Numeral :=
  match x.toModel.unpack with
  | .finite _ n q _ => ⟨(Decimal.exact n q).whole, some (Decimal.exact n q).fraction⟩
  | _ => ⟨['0'], none⟩

theorem digital_ofFloat (x : Float) : (ofFloat x).Digital := by
  unfold ofFloat
  split
  · exact ⟨Decimal.whole_ne_nil _, fun c hc => Decimal.isDigit_of_mem_whole hc,
      fun c hc => Decimal.isDigit_of_mem_fraction hc⟩
  · exact ⟨by simp, by simp, by simp⟩

theorem exponent_exact_le (n : Nat) (q : Int) : (Decimal.exact n q).exponent ≤ 0 := by
  unfold Decimal.exact
  split
  · exact Int.le_refl 0
  · next hq => exact Int.le_of_lt (Int.not_le.mp hq)

/-- The numeral of an unsigned float denotes it. -/
theorem value_ofFloat {x : Float} (h : Unsigned x) : (ofFloat x).value = x := by
  unfold ofFloat value
  rcases h with hx | ⟨n, q, hn, hx⟩
  · have hback := Packing.ofModel_pack_unpack x
    rw [hx] at hback ⊢
    exact hback
  · rw [hx]
    simp only [Option.getD_some, Decimal.ofDigits_whole_fraction (exponent_exact_le n q)]
    exact Decimal.toFloat_exact hx

theorem value_ofFloat_of_nonneg {x : Float} (hfinite : x.isFinite = true) (h : 0 ≤ x) :
    (ofFloat x).value = x.abs := by
  rcases unsigned_or_eq_of_nonneg hfinite h with hx | rfl
  · rw [value_ofFloat hx, Decimal.abs_eq_self hx]
  · rfl

theorem isFinite_value_ofFloat {x : Float} (hfinite : x.isFinite = true) (h : 0 ≤ x) :
    (ofFloat x).value.isFinite = true := by
  rcases unsigned_or_eq_of_nonneg hfinite h with hx | rfl
  · rw [value_ofFloat hx, hfinite]
  · decide

end Numeral

end ZPlane
