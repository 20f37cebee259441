import ZPlane.Proofs.Decimal.Digits
import ZPlane.Proofs.Text.Letters
import ZPlane.Proofs.Token.Spelling

/-!
# The Longest Token

A numeral is taken off a text as far as it goes. It goes on with digits, and with a point as
long as it has none. `Stops` says that the characters behind a numeral do neither, which is a
look at one character, and `stops_iff_longest` is what that look is worth: among all numerals
that the text starts with, no other one is longer.

So a numeral in front of a text is one token if and only if the text behind it stops there, and
a name if no letter follows it. A letter stops every numeral, and this is why `2i` is two
tokens.

## Main definitions

* `Numeral.Stops`: Characters that do not go on with a numeral.

## Theorems

* `Numeral.take_append_chars`, `Numeral.drop_append_chars`: A numeral is taken off as a whole
  where the text behind it stops.
* `Numeral.digital_take`, `Numeral.stops_drop`: What is taken off is a numeral, and what is left
  stops it.
* `Numeral.stops_iff_longest`: Where a numeral stops, it is the longest one.
* `Token.Scans.numeral`, `Token.Scans.letters`: Numerals and names in front of what stops them
  are tokens.
-/

namespace ZPlane

namespace Numeral

/-- Characters that do not go on with the numeral: they start neither with a digit nor, where
    the numeral has no point, with a point. -/
def Stops (n : Numeral) (rest : List Char) : Prop :=
  ∀ c ∈ rest.head?, c.isDigit = false ∧ (n.fraction = none → c ≠ '.')

theorem stops_nil (n : Numeral) : n.Stops [] := by
  intro c hc
  cases hc

theorem chars_cons (c : Char) (whole : List Char) (fraction : Option (List Char)) :
    chars ⟨c :: whole, fraction⟩ = c :: chars ⟨whole, fraction⟩ := by
  cases fraction <;> rfl

/-- A numeral starts with a digit. -/
theorem Digital.exists_cons {n : Numeral} (h : n.Digital) :
    ∃ c cs, n.chars = c :: cs ∧ c.isDigit = true := by
  rcases n with ⟨_ | ⟨c, whole⟩, fraction⟩
  · exact absurd rfl h.whole_ne
  · exact ⟨c, _, chars_cons c whole fraction, h.whole c List.mem_cons_self⟩

section

variable {c : Char} {whole rest : List Char} {fraction : Option (List Char)}

/-- A numeral is taken off as a whole where the text behind it stops. -/
theorem take_append_chars (h : Digital ⟨c :: whole, fraction⟩)
    (hstops : Stops ⟨c :: whole, fraction⟩ rest) :
    take c (chars ⟨whole, fraction⟩ ++ rest) = ⟨c :: whole, fraction⟩ := by
  have hwhole : ∀ d ∈ whole, d.isDigit = true :=
    fun d hd => h.whole d (List.mem_cons_of_mem c hd)
  have hdigit : ∀ d ∈ rest.head?, d.isDigit = false := fun d hd => (hstops d hd).1
  unfold take chars
  cases fraction with
  | none =>
    -- The digits end at the rest, and its first character is no point.
    simp only [takeWhile_append_of_head hdigit, dropWhile_append_of_head hdigit,
      List.takeWhile_eq_self_iff.mpr hwhole, List.dropWhile_eq_nil_iff.mpr hwhole, List.nil_append]
    cases rest with
    | nil => rfl
    | cons d rest => simp [(hstops d rfl).2 rfl]
  | some digits =>
    have hdigits : digits.takeWhile Char.isDigit = digits :=
      List.takeWhile_eq_self_iff.mpr h.fraction
    rw [List.append_assoc, List.takeWhile_append_of_pos hwhole, List.dropWhile_append_of_pos hwhole]
    simp [takeWhile_append_of_head hdigit, hdigits]

theorem drop_append_chars (h : Digital ⟨c :: whole, fraction⟩)
    (hstops : Stops ⟨c :: whole, fraction⟩ rest) :
    drop (chars ⟨whole, fraction⟩ ++ rest) = rest := by
  -- What is taken off and what is left make up the text, so the rest is what is left.
  have hsplit := chars_take_append_drop c (chars ⟨whole, fraction⟩ ++ rest)
  rw [take_append_chars h hstops, chars_cons, List.cons_append, List.cons_inj_right] at hsplit
  exact List.append_cancel_left hsplit

end

theorem digital_take {c : Char} (hc : c.isDigit = true) (cs : List Char) :
    (take c cs).Digital := by
  refine ⟨by simp [take], ?_, ?_⟩
  · intro d hd
    rcases List.mem_cons.mp hd with rfl | hd
    · exact hc
    · exact List.all_eq_true.mp List.all_takeWhile d hd
  · intro d hd
    unfold take at hd
    split at hd
    · exact List.all_eq_true.mp List.all_takeWhile d hd
    · cases hd

/-- What is left after a numeral was taken off stops it. -/
theorem stops_drop (c : Char) (cs : List Char) : (take c cs).Stops (drop cs) := by
  intro d hd
  unfold drop at hd
  unfold take
  generalize hrest : cs.dropWhile Char.isDigit = rest at hd ⊢
  split at hd
  · exact ⟨head?_dropWhile hd, by simp⟩
  · next hpoint =>
    -- The numeral has no point, since no point was left after its digits.
    refine ⟨head?_dropWhile (hrest ▸ hd), fun _ => ?_⟩
    rintro rfl
    cases rest with
    | nil => cases hd
    | cons e rest =>
      cases hd
      exact hpoint rest rfl

theorem not_mem_of_isDigit {ds : List Char} (h : ∀ d ∈ ds, d.isDigit = true) : '.' ∉ ds := by
  intro hmem
  exact absurd (h '.' hmem) (by decide)

/-- A numeral has a point exactly if it has a fraction, and no second one. -/
theorem Digital.count_point {n : Numeral} (h : n.Digital) :
    n.chars.count '.' = if n.fraction = none then 0 else 1 := by
  have hplain {l : List Char} (hl : ∀ c ∈ l, c.isDigit = true) : l.count '.' = 0 :=
    List.count_eq_zero.mpr (not_mem_of_isDigit hl)
  rcases n with ⟨whole, _ | fraction⟩
  · simpa [chars] using hplain h.whole
  · have hfraction : fraction.count '.' = 0 := hplain h.fraction
    simp [chars, hplain h.whole, hfraction]

/-- No numeral is longer than one that stops. -/
theorem Stops.length_le {n m : Numeral} {rest : List Char} (h : n.Stops rest) (hn : n.Digital)
    (hm : m.Digital) (hstart : m.chars <+: n.chars ++ rest) :
    m.chars.length ≤ n.chars.length := by
  rcases List.prefix_or_prefix_of_prefix hstart (List.prefix_append n.chars rest) with hle | hle
  · exact hle.length_le
  rcases hle with ⟨extra, heq⟩
  cases extra with
  | nil => rw [← heq, List.append_nil]
  | cons d extra =>
    exfalso
    -- A longer numeral goes on with the first character of the rest.
    rw [← heq, List.prefix_append_right_inj] at hstart
    have hhead : d ∈ rest.head? := by
      rcases hstart with ⟨tail, rfl⟩
      rfl
    have hd : d ∈ m.chars := by simp [← heq]
    rcases hm.chars_plain d hd with hdigit | rfl
    · rw [(h d hhead).1] at hdigit
      cases hdigit
    · -- So that is a point, and the numeral has one already.
      have hfraction : n.fraction ≠ none := fun hnone => (h '.' hhead).2 hnone rfl
      have hcount := congrArg (List.count '.') heq
      rw [List.count_append, hn.count_point, hm.count_point, if_neg hfraction,
        List.count_cons_self] at hcount
      split at hcount <;> omega

/-- A numeral stops exactly where no numeral that the text starts with is longer. -/
theorem stops_iff_longest {n : Numeral} {rest : List Char} (hn : n.Digital) :
    n.Stops rest ↔ ∀ m : Numeral, m.Digital → m.chars <+: n.chars ++ rest →
      m.chars.length ≤ n.chars.length := by
  constructor
  · intro h m hm hstart
    exact h.length_le hn hm hstart
  intro h d hd
  rcases rest with _ | ⟨e, rest⟩
  · cases hd
  cases hd
  rcases n with ⟨whole, fraction⟩
  have hlonger {m : Numeral} (hm : m.Digital) (hchars : m.chars = chars ⟨whole, fraction⟩ ++ [d]) :
      False := by
    have hle := h m hm ⟨rest, by simp [hchars]⟩
    rw [hchars, List.length_append, List.length_singleton] at hle
    omega
  constructor
  · -- A digit could be put behind the last one.
    by_contra hdigit
    have hmem {l : List Char} (hl : ∀ c ∈ l, c.isDigit = true) :
        ∀ c ∈ l ++ [d], c.isDigit = true := by
      intro c hc
      rcases List.mem_append.mp hc with hc | hc
      · exact hl c hc
      · rw [List.mem_singleton.mp hc]
        simpa using hdigit
    cases fraction with
    | none => exact hlonger (m := ⟨whole ++ [d], none⟩) ⟨by simp, hmem hn.whole, by simp⟩ rfl
    | some digits =>
      exact hlonger (m := ⟨whole, some (digits ++ [d])⟩) ⟨hn.whole_ne, hn.whole, hmem hn.fraction⟩
        (by simp [chars])
  · rintro hnone rfl
    dsimp only at hnone
    subst hnone
    exact hlonger (m := ⟨whole, some []⟩) ⟨hn.whole_ne, hn.whole, by simp⟩ rfl

end Numeral

namespace Token

namespace Scans

variable {column : Nat} {rest : List Char} {ts : List Token}

/-- A finite numeral in front of what stops it is a token. -/
theorem numeral {n : Numeral} (h : n.Digital) (hfinite : n.value.isFinite = true)
    (hstops : n.Stops rest) (hrest : Scans (column + n.chars.length) rest ts) :
    Scans column (n.chars ++ rest) (⟨.number n.value, String.ofList n.chars, column⟩ :: ts) := by
  rcases n with ⟨_ | ⟨c, whole⟩, fraction⟩
  · exact absurd rfl h.whole_ne
  have hc : c.isDigit = true := h.whole c List.mem_cons_self
  have hblank := isBlank_of_isAlphanum (Bool.or_eq_true_iff.mpr (.inr hc))
  have hscans := @Scans.number column c (Numeral.chars ⟨whole, fraction⟩ ++ rest) ts hblank
    (Text.isAlpha_of_isDigit hc) hc
  rw [Numeral.take_append_chars h hstops, Numeral.drop_append_chars h hstops] at hscans
  rw [Numeral.chars_cons, List.cons_append, ← Numeral.chars_cons]
  exact hscans hfinite hrest

/-- Letters in front of what does not go on with them are a token. -/
theorem letters {cs : List Char} (hne : cs ≠ []) (h : ∀ c ∈ cs, c.isAlpha = true)
    (hstops : ∀ c ∈ rest.head?, c.isAlpha = false)
    (hrest : Scans (column + cs.length) rest ts) :
    Scans column (cs ++ rest)
      (⟨.identifier (String.ofList cs), String.ofList cs, column⟩ :: ts) := by
  rcases cs with _ | ⟨c, cs⟩
  · exact absurd rfl hne
  have hc := h c List.mem_cons_self
  have hcs : ∀ d ∈ cs, d.isAlpha = true := fun d hd => h d (List.mem_cons_of_mem c hd)
  have hblank := isBlank_of_isAlphanum (Bool.or_eq_true_iff.mpr (.inl hc))
  have hscans := @Scans.name column c (cs ++ rest) ts hblank hc
  rw [takeWhile_append_of_head hstops, dropWhile_append_of_head hstops,
    List.takeWhile_eq_self_iff.mpr hcs, List.dropWhile_eq_nil_iff.mpr hcs] at hscans
  exact hscans hrest

end Scans

end Token

end ZPlane
