import ZPlane.Proofs.Token.Tiling

/-!
# How Far Scanning Gets

Scanning reads tokens and blanks until there is nothing left, or until it meets something that
is neither. `Reads` is what it has read so far. The tokens in it are judged with the rest of the
text present, since a token is as long as it can be, but all that they see of the rest is its
first character. `Halts` says what it has come to, and so what the outcome is.

Every text is cut in two this way. What is read is read again in front of any other text that
starts with the same character, and scanning goes on behind it.

## Main definitions

* `Token.Reads`: Characters that are read as tokens in front of the rest of a text.
* `Token.Starts`: The characters that a token or a blank starts with.
* `Token.Halts`: What scanning comes to, and its outcome.

## Theorems

* `Token.Fits.scanFrom_append`: A token is taken off whatever becomes of the text behind it.
* `Token.Reads.scanFrom_append`: Scanning goes over what is read and on with the rest.
* `Token.Reads.fits_last`: The last token that was read fits the rest.
* `Token.exists_reads`: Every text is read up to where scanning halts.
-/

namespace ZPlane

namespace Token

variable {column : Nat} {cs rest more : List Char} {t : Token} {us : List Token}

/-- Whether a token fits is decided by the first character behind it. -/
theorem Fits.of_head?_eq (h : Fits t rest) (heq : more.head? = rest.head?) : Fits t more := by
  cases h with
  | name hne hletters hstops => exact .name hne hletters (heq ▸ hstops)
  | @number n _ _ hdigital hfinite hlongest =>
    have hstops : n.Stops more := by
      unfold Numeral.Stops
      rw [heq]
      exact (Numeral.stops_iff_longest hdigital).mpr hlongest
    exact .number hdigital hfinite ((Numeral.stops_iff_longest hdigital).mp hstops)
  | sign hk => exact .sign hk

/-- A token that fits the text behind it is taken off, whatever becomes of that text. -/
theorem Fits.scanFrom_append (h : Fits t rest) :
    scanFrom t.column (t.lexeme.toList ++ rest) =
      (t :: ·) <$> scanFrom (t.column + t.lexeme.length) rest := by
  cases h with
  | @name cs _ column hne hletters hstops =>
    rcases cs with _ | ⟨c, cs⟩
    · exact absurd rfl hne
    have hc := hletters c List.mem_cons_self
    have hcs : ∀ d ∈ cs, d.isAlpha = true := fun d hd => hletters d (List.mem_cons_of_mem c hd)
    have hblank := isBlank_of_isAlphanum (Bool.or_eq_true_iff.mpr (.inl hc))
    rw [String.toList_ofList, List.cons_append, scanFrom, if_neg (by simp [hblank]), if_pos hc]
    simp only [takeWhile_append_of_head hstops, dropWhile_append_of_head hstops,
      List.takeWhile_eq_self_iff.mpr hcs, List.dropWhile_eq_nil_iff.mpr hcs, List.nil_append,
      String.length_ofList]
  | @number n _ column hdigital hfinite hlongest =>
    rcases n with ⟨_ | ⟨c, whole⟩, fraction⟩
    · exact absurd rfl hdigital.whole_ne
    have hstops := (Numeral.stops_iff_longest hdigital).mpr hlongest
    have hc : c.isDigit = true := hdigital.whole c List.mem_cons_self
    have hblank := isBlank_of_isAlphanum (Bool.or_eq_true_iff.mpr (.inr hc))
    have halpha := Text.isAlpha_of_isDigit hc
    rw [String.toList_ofList, Numeral.chars_cons, List.cons_append, scanFrom,
      if_neg (by simp [hblank]), if_neg (by simp [halpha]), if_pos hc]
    simp only [Numeral.take_append_chars hdigital hstops, Numeral.drop_append_chars hdigital hstops,
      hfinite, if_true, String.length_ofList, ← Numeral.chars_cons]
  | @sign k c _ column hk =>
    have hsymbol := Kind.symbol?_eq_some_iff.mpr hk
    rcases plain_of_symbol? hsymbol with ⟨hblank, halpha, hdigit, -⟩
    rw [toList_toString, List.singleton_append, scanFrom, if_neg (by simp [hblank]),
      if_neg (by simp [halpha]), if_neg (by simp [hdigit])]
    simp only [hsymbol, length_toString]

/-- The characters are read as the tokens, where `rest` follows them. -/
inductive Reads (rest : List Char) : Nat → List Char → List Token → Prop
  | nil {column : Nat} : Reads rest column [] []
  | blank {column : Nat} {c : Char} {cs : List Char} {us : List Token} :
      isBlank c = true → Reads rest (column + 1) cs us → Reads rest column (c :: cs) us
  | token {t : Token} {cs : List Char} {us : List Token} :
      Fits t (cs ++ rest) → Reads rest (t.column + t.lexeme.length) cs us →
      Reads rest t.column (t.lexeme.toList ++ cs) (t :: us)

namespace Reads

/-- What was read is read again, if the text goes on with the same character. -/
theorem of_head?_eq (h : Reads rest column cs us) (heq : more.head? = rest.head?) :
    Reads more column cs us := by
  induction h with
  | nil => exact .nil
  | blank hblank _ ih => exact .blank hblank ih
  | token hfits _ ih =>
    refine .token (hfits.of_head?_eq ?_) ih
    rw [List.head?_append, List.head?_append, heq]

/-- What was read is read again, if the text ends there. -/
theorem to_nil (h : Reads rest column cs us) : Reads [] column cs us := by
  induction h with
  | nil => exact .nil
  | blank hblank _ ih => exact .blank hblank ih
  | token hfits _ ih =>
    refine .token ?_ ih
    rw [List.append_nil]
    exact hfits.of_append

/-- Scanning goes over what is read and on with the rest. -/
theorem scanFrom_append (h : Reads rest column cs us) :
    scanFrom column (cs ++ rest) = (us ++ ·) <$> scanFrom (column + cs.length) rest := by
  induction h with
  | nil =>
    simp
  | @blank column c cs us hblank _ ih =>
    rw [List.cons_append, scanFrom, if_pos hblank, ih, List.length_cons, Nat.add_right_comm,
      Nat.add_assoc]
  | @token t cs us hfits _ ih =>
    rw [List.append_assoc, hfits.scanFrom_append, ih, List.length_append, String.length_toList,
      Nat.add_assoc, Functor.map_map]
    rfl

/-- The last token that was read fits the rest, unless a blank follows it. -/
theorem fits_last {c : Char} (h : Reads rest column (cs ++ [c]) us) (hc : isBlank c = false) :
    ∃ before l t, cs = before ++ l ∧ t.lexeme.toList = l ++ [c] ∧ Fits t rest := by
  generalize hds : cs ++ [c] = ds at h
  induction h generalizing cs with
  | nil => simp at hds
  | @blank column d ds us hblank _ ih =>
    rcases cs with _ | ⟨e, cs⟩
    · cases hds
      rw [hblank] at hc
      cases hc
    · rcases List.cons.inj hds with ⟨-, hds⟩
      rcases ih hds with ⟨before, l, t, rfl, hlexeme, hfits⟩
      exact ⟨e :: before, l, t, rfl, hlexeme, hfits⟩
  | @token t ds us hfits _ ih =>
    rcases List.eq_nil_or_concat' ds with rfl | ⟨es, e, rfl⟩
    · rw [List.append_nil] at hds
      exact ⟨[], cs, t, rfl, hds.symm, hfits⟩
    · rw [← List.append_assoc] at hds
      rcases List.append_inj' hds rfl with ⟨rfl, he⟩
      cases he
      rcases ih rfl with ⟨before, l, u, rfl, hlexeme, hfits⟩
      exact ⟨t.lexeme.toList ++ before, l, u, by rw [List.append_assoc], hlexeme, hfits⟩

end Reads

/-- The characters that a token or a blank starts with: letters, digits, signs and blanks. -/
def Starts (c : Char) : Prop :=
  c.isAlpha = true ∨ c.isDigit = true ∨ c ∈ ['+', '-', '*', '/', '^', '=', '(', ')'] ∨
    c ∈ [' ', '\t', '\r', '\n']

theorem exists_symbol?_iff {c : Char} :
    (∃ k, symbol? c = some k) ↔ c ∈ ['+', '-', '*', '/', '^', '=', '(', ')'] := by
  constructor
  · rintro ⟨k, hk⟩
    unfold symbol? at hk
    split at hk <;> simp_all
  · intro hc
    simp only [List.mem_cons, List.not_mem_nil, or_false] at hc
    rcases hc with rfl | rfl | rfl | rfl | rfl | rfl | rfl | rfl <;> exact ⟨_, rfl⟩

/-- The ways in which scanning comes to an end: there are no characters left, the next one
    starts nothing, or the next numeral is too large. -/
inductive Halts (column : Nat) : List Char → Except ScanError (List Token) → Prop
  | stop : Halts column [] (.ok [⟨.endOfText, "", column⟩])
  | unexpected {c : Char} {cs : List Char} : ¬ Starts c →
      Halts column (c :: cs) (.error ⟨column, .unexpectedCharacter c⟩)
  | invalid {n : Numeral} {cs : List Char} : n.Digital → n.Stops cs → n.value.isFinite = false →
      Halts column (n.chars ++ cs) (.error ⟨column, .invalidNumber (String.ofList n.chars)⟩)

theorem Halts.scanFrom_eq {result : Except ScanError (List Token)} (h : Halts column cs result) :
    scanFrom column cs = result := by
  cases h with
  | stop => rw [scanFrom]
  | @unexpected c cs hc =>
    unfold Starts at hc
    push Not at hc
    rcases hc with ⟨halpha, hdigit, hsign, hblank⟩
    rw [← isBlank_iff] at hblank
    have hsymbol : symbol? c = none := by
      rw [← exists_symbol?_iff] at hsign
      exact Option.eq_none_iff_forall_ne_some.mpr fun k hk => hsign ⟨k, hk⟩
    rw [scanFrom, if_neg hblank, if_neg halpha, if_neg hdigit]
    simp only [hsymbol]
  | @invalid n cs hdigital hstops hvalue =>
    rcases n with ⟨_ | ⟨c, whole⟩, fraction⟩
    · exact absurd rfl hdigital.whole_ne
    have hc : c.isDigit = true := hdigital.whole c List.mem_cons_self
    have hblank := isBlank_of_isAlphanum (Bool.or_eq_true_iff.mpr (.inr hc))
    have halpha := Text.isAlpha_of_isDigit hc
    rw [Numeral.chars_cons, List.cons_append, scanFrom, if_neg (by simp [hblank]),
      if_neg (by simp [halpha]), if_pos hc]
    simp [Numeral.take_append_chars hdigital hstops, hvalue, ← Numeral.chars_cons]

/-- Scanning reads as far as it can. -/
theorem exists_reads (column : Nat) (cs : List Char) :
    ∃ before rest us result, cs = before ++ rest ∧ Reads rest column before us ∧
      Halts (column + before.length) rest result := by
  -- A token that is taken off stands in front of what is read after it.
  have htoken {t : Token} {cs tail : List Char} (hcs : cs = t.lexeme.toList ++ tail)
      (hfits : Fits t tail)
      (ih : ∃ before rest us result, tail = before ++ rest ∧
        Reads rest (t.column + t.lexeme.length) before us ∧
        Halts (t.column + t.lexeme.length + before.length) rest result) :
      ∃ before rest us result, cs = before ++ rest ∧ Reads rest t.column before us ∧
        Halts (t.column + before.length) rest result := by
    rcases ih with ⟨before, rest, us, result, rfl, hreads, hhalts⟩
    refine ⟨_, rest, t :: us, result, ?_, .token hfits hreads, ?_⟩
    · rw [hcs, List.append_assoc]
    · rwa [List.length_append, String.length_toList, ← Nat.add_assoc]
  fun_induction scanFrom column cs with
  | case1 column => exact ⟨[], [], [], _, rfl, .nil, .stop⟩
  | case2 column c cs hblank ih =>
    rcases ih with ⟨before, rest, us, result, rfl, hreads, hhalts⟩
    refine ⟨c :: before, rest, us, result, rfl, .blank hblank hreads, ?_⟩
    rwa [List.length_cons, Nat.add_comm before.length, ← Nat.add_assoc]
  | case3 column c cs hblank halpha =>
    rename_i ih
    refine htoken ?_ (.letters halpha cs column) (by rwa [String.length_ofList])
    rw [String.toList_ofList, List.cons_append, List.takeWhile_append_dropWhile]
  | case4 column c cs hblank halpha hdigit =>
    rename_i hfinite ih
    refine htoken ?_ (.numeral hdigit cs column hfinite) (by rwa [String.length_ofList])
    rw [String.toList_ofList, Numeral.chars_take_append_drop]
  | case5 column c cs hblank halpha hdigit =>
    rename_i hfinite
    have hhalts := @Halts.invalid column _ _ (Numeral.digital_take hdigit cs)
      (Numeral.stops_drop c cs) (by simpa using hfinite)
    rw [Numeral.chars_take_append_drop] at hhalts
    exact ⟨[], c :: cs, [], _, rfl, .nil, hhalts⟩
  | case6 column c cs hblank halpha hdigit kind hkind ih =>
    refine htoken ?_ (.sign (Kind.symbol?_eq_some_iff.mp hkind)) (by rwa [length_toString])
    rw [toList_toString]
    rfl
  | case7 column c cs hblank halpha hdigit hkind =>
    refine ⟨[], c :: cs, [], _, rfl, .nil, .unexpected ?_⟩
    rintro (h | h | h | h)
    · exact halpha h
    · exact hdigit h
    · rcases exists_symbol?_iff.mpr h with ⟨k, hk⟩
      rw [hkind] at hk
      cases hk
    · exact hblank (isBlank_iff.mpr h)

end Token

end ZPlane
