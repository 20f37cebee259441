import ZPlane.Proofs.Decimal.Positional
import ZPlane.Proofs.Shader.Reader

/-!
# Literals of the Shading Language

What the shader writes for a float is a literal of the shading language, and it reads
back. A literal is a numeral, with an exponent behind it where the number would need
many zeros. Without an exponent it has a point, and at least one digit behind that.

The digits of a decimal and its exponent come back as they were, but for an integral
decimal written out with its zeros. That one reads as the same number.

## Main definitions

* `Shading.IsLiteral`: Characters that are read as a literal, and the float they denote.

## Theorems

* `Shading.integer?_toString`: An exponent reads back.
* `Shading.isLiteral_decimal`: The text of a decimal is a literal.
* `Shading.isLiteral_write`: The text of an unsigned float is a literal that reads back.
-/

namespace ZPlane

namespace Shading

theorem ne_of_isDigit {c d : Char} (hc : c.isDigit = true) (hd : d.isDigit = false) : c ≠ d := by
  rintro rfl
  rw [hc] at hd
  cases hd

theorem digits?_eq {cs : List Char} (hne : cs ≠ []) (h : ∀ c ∈ cs, c.isDigit = true) :
    digits? cs = some (Nat.ofDigitChars 10 cs 0) := by
  unfold digits?
  rw [if_pos ⟨hne, List.all_eq_true.mpr h⟩]

theorem digits?_toDigits (n : Nat) : digits? (Nat.toDigits 10 n) = some n := by
  have hdigits : ∀ c ∈ Nat.toDigits 10 n, c.isDigit = true :=
    fun c hc => Nat.isDigit_of_mem_toDigits (by decide) (by decide) hc
  rw [digits?_eq Nat.toDigits_ne_nil hdigits, Nat.ofDigitChars_ten_toDigits]

/-- The characters of an exponent: its digits, and a minus sign where it is negative. -/
theorem toList_toString (k : Int) :
    (toString k).toList = if 0 ≤ k then Nat.toDigits 10 k.toNat
      else '-' :: Nat.toDigits 10 (-k).toNat := by
  rw [Int.toString_eq_repr, Int.repr_eq_if]
  split
  · rw [Nat.toList_repr]
  · rw [String.toList_append, Nat.toList_repr]
    rfl

theorem integer?_of_digits? {cs : List Char} {n : Nat} (h : digits? cs = some n) :
    integer? cs = some (n : Int) := by
  unfold integer?
  split
  · -- No digits start with a sign.
    cases h
  · cases h
  · rw [h]
    rfl

/-- An exponent reads back. -/
theorem integer?_toString (k : Int) : integer? (toString k).toList = some k := by
  rw [toList_toString]
  split
  · next hk =>
    rw [integer?_of_digits? (digits?_toDigits _), Int.toNat_of_nonneg hk]
  · next hk =>
    have hneg : -((-k).toNat : Int) = k := by omega
    rw [integer?, digits?_toDigits, Option.map_some, hneg]

/-- The digits on both sides of the point of a numeral. -/
theorem chars_split {n : Numeral} (h : n.Digital) :
    n.chars.takeWhile (· ≠ '.') = n.whole ∧
      (n.chars.dropWhile (· ≠ '.')).drop 1 = n.fraction.getD [] := by
  have hwhole : ∀ c ∈ n.whole, decide (c ≠ '.') = true :=
    fun c hc => decide_eq_true (ne_of_isDigit (h.whole c hc) rfl)
  rcases n with ⟨whole, _ | fraction⟩
  · refine ⟨List.takeWhile_eq_self_iff.mpr hwhole, ?_⟩
    rw [Numeral.chars, List.dropWhile_eq_nil_iff.mpr hwhole]
    rfl
  · unfold Numeral.chars
    rw [List.takeWhile_append_of_pos hwhole, List.dropWhile_append_of_pos hwhole]
    simp

theorem ne_e_of_mem_chars {n : Numeral} (h : n.Digital) :
    ∀ c ∈ n.chars, decide (c ≠ 'e') = true := by
  intro c hc
  rcases h.chars_plain c hc with hc | rfl
  · exact decide_eq_true (ne_of_isDigit hc rfl)
  · decide

theorem digits?_numeral {n : Numeral} (h : n.Digital) :
    digits? (n.whole ++ n.fraction.getD []) =
      some (Nat.ofDigitChars 10 (n.whole ++ n.fraction.getD []) 0) := by
  refine digits?_eq (by simp [h.whole_ne]) ?_
  intro c hc
  rcases List.mem_append.mp hc with hc | hc
  · exact h.whole c hc
  · exact h.fraction c hc

/-- A numeral with a point is a literal of the same value. -/
theorem float?_chars {n : Numeral} (h : n.Digital) (hpoint : '.' ∈ n.chars) :
    float? n.chars = some n.value := by
  have htake : n.chars.takeWhile (· ≠ 'e') = n.chars :=
    List.takeWhile_eq_self_iff.mpr (ne_e_of_mem_chars h)
  have hdrop : n.chars.dropWhile (· ≠ 'e') = [] :=
    List.dropWhile_eq_nil_iff.mpr (ne_e_of_mem_chars h)
  rcases chars_split h with ⟨hwhole, hfraction⟩
  unfold float?
  simp only [htake, hdrop, hwhole, hfraction, digits?_numeral h, if_pos hpoint]
  rfl

/-- A numeral with an exponent is a literal, and the exponent counts from its point. -/
theorem float?_chars_append {n : Numeral} {exponent : List Char} {k : Int} (h : n.Digital)
    (hk : integer? exponent = some k) :
    float? (n.chars ++ 'e' :: exponent) = some (Decimal.toFloat
      ⟨Nat.ofDigitChars 10 (n.whole ++ n.fraction.getD []) 0,
        k - (n.fraction.getD []).length⟩) := by
  have htake : (n.chars ++ 'e' :: exponent).takeWhile (· ≠ 'e') = n.chars := by
    rw [List.takeWhile_append_of_pos (ne_e_of_mem_chars h)]
    simp
  have hdrop : (n.chars ++ 'e' :: exponent).dropWhile (· ≠ 'e') = 'e' :: exponent := by
    rw [List.dropWhile_append_of_pos (ne_e_of_mem_chars h)]
    simp
  rcases chars_split h with ⟨hwhole, hfraction⟩
  unfold float?
  simp only [htake, hdrop, hwhole, hfraction, digits?_numeral h, hk]
  rfl

/-- Nothing follows, or one of the given characters. -/
def Follows (follow : List Char) (rest : List Char) : Prop :=
  ∀ c ∈ rest.head?, c ∈ follow

/-- What stands behind an expression: a comma or a closing parenthesis. -/
def afterSum : List Char :=
  [',', ')']

theorem follows_cons {follow : List Char} {c : Char} (h : c ∈ follow) (cs : List Char) :
    Follows follow (c :: cs) := by
  rintro d ⟨⟩
  exact h

theorem takeLiteral_of_follows (marked : Bool) {rest : List Char} (h : Follows afterSum rest) :
    takeLiteral marked rest = ([], rest) := by
  rcases rest with _ | ⟨c, cs⟩
  · rfl
  · have hc : c = ',' ∨ c = ')' := by simpa [afterSum] using h c rfl
    rcases hc with rfl | rfl <;> cases marked <;> rfl

/-- Digits and points are taken one by one, and after the first of them there is no more
    place for a sign. -/
theorem takeLiteral_append {cs rest : List Char} (marked : Bool)
    (h : ∀ c ∈ cs, c.isDigit = true ∨ c = '.') :
    takeLiteral marked (cs ++ rest) =
      (cs ++ (takeLiteral (marked && cs.isEmpty) rest).1,
        (takeLiteral (marked && cs.isEmpty) rest).2) := by
  induction cs generalizing marked with
  | nil => simp
  | cons c cs ih =>
    have hc := h c List.mem_cons_self
    have hmark : (c == 'e') = false := by
      rcases hc with hc | rfl
      · exact beq_eq_false_iff_ne.mpr (ne_of_isDigit hc rfl)
      · rfl
    have htaken : (c.isDigit || c == '.') = true := by
      rcases hc with hc | rfl
      · rw [hc]
        rfl
      · rfl
    have htail := ih false fun d hd => h d (List.mem_cons_of_mem c hd)
    rw [List.cons_append, takeLiteral, htaken, hmark, htail]
    simp

/-- The exponent of a literal is taken with its sign. -/
theorem takeLiteral_exponent (k : Int) {rest : List Char} (h : Follows afterSum rest) :
    takeLiteral false ('e' :: ((toString k).toList ++ rest)) =
      ('e' :: (toString k).toList, rest) := by
  have hdigits (marked : Bool) (n : Nat) :
      takeLiteral marked (Nat.toDigits 10 n ++ rest) = (Nat.toDigits 10 n, rest) := by
    rw [takeLiteral_append marked fun c hc =>
      .inl (Nat.isDigit_of_mem_toDigits (by decide) (by decide) hc)]
    simp [takeLiteral_of_follows _ h]
  have hmark (cs : List Char) : takeLiteral false ('e' :: cs) =
      ('e' :: (takeLiteral true cs).1, (takeLiteral true cs).2) := rfl
  rw [hmark, toList_toString]
  split
  · rw [hdigits]
  · have hminus (cs : List Char) : takeLiteral true ('-' :: cs) =
        ('-' :: (takeLiteral false cs).1, (takeLiteral false cs).2) := rfl
    rw [List.cons_append, hminus, hdigits]

/-- Characters that are read as a literal whatever stands behind them, and the float they
    denote. -/
structure IsLiteral (cs : List Char) (x : Float) : Prop where
  starts : ∃ c tail, cs = c :: tail ∧ c.isDigit = true
  taken : ∀ rest, Follows afterSum rest → takeLiteral false (cs ++ rest) = (cs, rest)
  value : float? cs = some x

theorem starts_chars {n : Numeral} (h : n.Digital) (rest : List Char) :
    ∃ c tail, n.chars ++ rest = c :: tail ∧ c.isDigit = true := by
  rcases n with ⟨_ | ⟨c, whole⟩, fraction⟩
  · exact absurd rfl h.whole_ne
  · refine ⟨c, (Numeral.chars ⟨whole, fraction⟩) ++ rest, ?_, h.whole c List.mem_cons_self⟩
    cases fraction <;> rfl

theorem isLiteral_chars {n : Numeral} (h : n.Digital) (hpoint : '.' ∈ n.chars) :
    IsLiteral n.chars n.value where
  starts := by simpa using starts_chars h []
  taken rest hrest := by
    rw [takeLiteral_append false h.chars_plain]
    simp [takeLiteral_of_follows _ hrest]
  value := float?_chars h hpoint

theorem isLiteral_chars_append {n : Numeral} (h : n.Digital) (k : Int) :
    IsLiteral (n.chars ++ 'e' :: (toString k).toList) (Decimal.toFloat
      ⟨Nat.ofDigitChars 10 (n.whole ++ n.fraction.getD []) 0,
        k - (n.fraction.getD []).length⟩) where
  starts := starts_chars h _
  taken rest hrest := by
    rw [List.append_assoc, List.cons_append, takeLiteral_append false h.chars_plain,
      Bool.false_and, takeLiteral_exponent k hrest]
  value := float?_chars_append h (integer?_toString k)

/-- A decimal written out is a numeral with a point. -/
theorem isLiteral_positional {d : Decimal} (h : d.exponent ≤ 2048) :
    IsLiteral (d.positional true) d.toFloat := by
  rcases Decimal.exists_numeral_positional h true with ⟨n, hdigital, htext, hvalue, hpoint⟩
  rw [htext, ← hvalue]
  exact isLiteral_chars hdigital (hpoint rfl)

/-- A decimal with an exponent: one digit before the point, and the others behind it. -/
theorem isLiteral_exponent {d : Decimal} {n : Numeral} (hone : n.whole.length = 1)
    (hdigits : n.whole ++ n.fraction.getD [] = d.digitChars) :
    IsLiteral (n.chars ++ 'e' :: (toString d.place).toList) d.toFloat := by
  have hall (c : Char) (hc : c ∈ n.whole ++ n.fraction.getD []) : c.isDigit = true := by
    rw [hdigits] at hc
    exact Decimal.isDigit_of_mem_digitChars hc
  have hdigital : n.Digital :=
    ⟨by simp [← List.length_eq_zero_iff, hone], fun c hc => hall c (List.mem_append_left _ hc),
      fun c hc => hall c (List.mem_append_right _ hc)⟩
  have hplace : d.place - (n.fraction.getD []).length = d.exponent := by
    rw [Decimal.place, ← hdigits, List.length_append, hone]
    omega
  have hliteral := isLiteral_chars_append hdigital d.place
  rw [hdigits, Decimal.ofDigitChars_digitChars, hplace] at hliteral
  exact hliteral

theorem isLiteral_scientific (d : Decimal) :
    IsLiteral (Decimal.scientific d.digitChars d.place) d.toFloat := by
  have hpos := d.length_digitChars_pos
  unfold Decimal.scientific
  rcases hds : d.digitChars with _ | ⟨c, _ | ⟨c', rest⟩⟩
  · rw [hds] at hpos
    exact absurd hpos (Nat.lt_irrefl 0)
  · exact isLiteral_exponent (n := ⟨[c], none⟩) rfl hds.symm
  · exact isLiteral_exponent (n := ⟨[c], some (c' :: rest)⟩) rfl hds.symm

/-- The text of a decimal is a literal that denotes it. -/
theorem isLiteral_decimal (d : Decimal) :
    IsLiteral (Layout.literal.decimal d).toList d.toFloat := by
  unfold Layout.decimal
  rw [String.toList_ofList]
  split
  · -- The layout writes out only what is short, far below what a float can be.
    next hplace =>
    refine isLiteral_positional ?_
    have hlen : 0 < d.digitChars.length := Nat.length_toDigits_pos
    simp only [Layout.literal, Decimal.place, Bool.and_eq_true, decide_eq_true_eq] at hplace
    omega
  · exact isLiteral_scientific d

/-- The text of an unsigned float is a literal that reads back. -/
theorem isLiteral_write {x : Float} (hx : Unsigned x) :
    IsLiteral (Layout.literal.write x).toList x := by
  rcases Layout.literal.exists_decimal_write hx with ⟨d, rfl, htext⟩
  rw [htext]
  exact isLiteral_decimal d

end Shading

end ZPlane
