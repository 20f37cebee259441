import ZPlane.Proofs.Token.Reads

/-!
# Where Scanning Fails

Scanning fails at the first character that starts nothing, or at the first numeral that is too
large for a float. What stands before it has its tokens, and what follows makes no difference:
every text with the same beginning fails in the same way.

Whether a text fails can also be told without scanning it. `Lexical` looks at each character
and its surroundings. Only a point has to stand in the right place, which is behind the digits
that a numeral starts with, so `1.2` is a numeral and `1.2.3` and `x.5` are nothing. The digits
behind a point belong to the numeral before it. `Apart` is how they are told from digits that
start a numeral of their own.

## Main definitions

* `Numeral.Apart`: Characters behind which a numeral can start.
* `Token.Lexical`: Characters that are all in their places.
* `ScanError.Forced`: An error that the text up to it forces.

## Theorems

* `Numeral.Digital.eq_of_stops`: Of the numerals that a text starts with, only one stops.
* `Token.lexical_of_reads`: What is read to its end has all characters in their places.
* `Token.Lexical.exists_ok`: A text with all characters in their places is read to its end.
* `Token.scan_error_exact`: Which texts fail, and where.
-/

namespace ZPlane

namespace Numeral

/-- The characters that numerals are made of. -/
def InNumeral (c : Char) : Prop :=
  c.isDigit = true ∨ c = '.'

/-- A numeral can start behind the characters: they end with neither a digit nor a point. -/
def Apart (cs : List Char) : Prop :=
  ∀ c ∈ cs.getLast?, ¬ InNumeral c

theorem apart_nil : Apart [] := by
  intro c hc
  cases hc

theorem Apart.of_append {ds : List Char} (cs : List Char) (h : Apart (cs ++ ds)) : Apart ds := by
  by_cases hne : ds = []
  · rw [hne]
    exact apart_nil
  · unfold Apart at h ⊢
    rwa [List.getLast?_append_of_ne_nil _ hne] at h

theorem apart_append {ds : List Char} (cs : List Char) (h : Apart ds) (hcs : ds = [] → Apart cs) :
    Apart (cs ++ ds) := by
  by_cases hne : ds = []
  · rw [hne, List.append_nil]
    exact hcs hne
  · unfold Apart at h ⊢
    rwa [List.getLast?_append_of_ne_nil _ hne]

/-- Digits behind a point are no numeral of their own. -/
theorem not_apart_of_point {before fraction pre digits : List Char}
    (heq : before ++ '.' :: fraction = pre ++ digits)
    (hfraction : ∀ d ∈ fraction, d.isDigit = true) (hdigits : ∀ d ∈ digits, d.isDigit = true) :
    ¬ Apart pre := by
  intro hapart
  rcases List.eq_nil_or_concat' pre with rfl | ⟨pre, c, rfl⟩
  · rw [List.nil_append] at heq
    exact not_mem_of_isDigit hdigits (by simp [← heq])
  have hc : ¬ InNumeral c := hapart c (by simp)
  rw [List.append_assoc, List.singleton_append] at heq
  rcases List.append_eq_append_iff.mp heq with ⟨l, rfl, hl⟩ | ⟨l, rfl, hl⟩
  · -- The last character before the digits is the point or stands behind it.
    have hmem : c ∈ '.' :: fraction := by simp [hl]
    rcases List.mem_cons.mp hmem with rfl | hmem
    · exact hc (.inr rfl)
    · exact hc (.inl (hfraction c hmem))
  · have hmem : '.' ∈ c :: digits := by simp [hl]
    rcases List.mem_cons.mp hmem with rfl | hmem
    · exact hc (.inr rfl)
    · exact not_mem_of_isDigit hdigits hmem

/-- The point of a numeral stands behind all its digits before the point. -/
theorem Digital.split_point {n : Numeral} (h : n.Digital) {before after : List Char}
    (heq : n.chars = before ++ '.' :: after) : before = n.whole ∧ n.fraction = some after := by
  rcases n with ⟨whole, _ | fraction⟩
  · exact absurd (by rw [show whole = _ from heq]; simp) (not_mem_of_isDigit h.whole)
  · have hfraction : '.' ∉ fraction := not_mem_of_isDigit h.fraction
    rcases List.append_eq_append_iff.mp (show whole ++ '.' :: fraction = _ from heq) with
      ⟨l, rfl, hl⟩ | ⟨l, rfl, hl⟩
    · cases l with
      | nil =>
        cases hl
        simp
      | cons c l =>
        rcases List.cons.inj hl with ⟨-, rfl⟩
        simp at hfraction
    · cases l with
      | nil =>
        cases hl
        simp
      | cons c l =>
        rcases List.cons.inj hl with ⟨rfl, -⟩
        exact absurd (by simp) (not_mem_of_isDigit h.whole)

/-- Of the numerals that a text starts with, only one stops. -/
theorem Digital.eq_of_stops {n m : Numeral} (hn : n.Digital) (hm : m.Digital)
    {rest rest' : List Char} (hstops : n.Stops rest) (hstops' : m.Stops rest')
    (heq : n.chars ++ rest = m.chars ++ rest') : n = m := by
  rcases n with ⟨_ | ⟨c, whole⟩, fraction⟩
  · exact absurd rfl hn.whole_ne
  rcases m with ⟨_ | ⟨d, whole'⟩, fraction'⟩
  · exact absurd rfl hm.whole_ne
  rw [chars_cons, chars_cons, List.cons_append, List.cons_append] at heq
  rcases List.cons.inj heq with ⟨rfl, htail⟩
  rw [← take_append_chars hn hstops, ← take_append_chars hm hstops', htail]

end Numeral

namespace Token

variable {column : Nat} {cs rest : List Char} {t : Token} {us : List Token}

theorem Fits.starts (h : Fits t rest) : ∀ c ∈ t.lexeme.toList, Starts c ∨ c = '.' := by
  intro c hc
  cases h with
  | name _ hletters _ =>
    rw [String.toList_ofList] at hc
    exact .inl (.inl (hletters c hc))
  | number hdigital _ _ =>
    rw [String.toList_ofList] at hc
    rcases hdigital.chars_plain c hc with hdigit | hpoint
    · exact .inl (.inr (.inl hdigit))
    · exact .inr hpoint
  | @sign k d _ _ hk =>
    rw [toList_toString, List.mem_singleton] at hc
    subst hc
    exact .inl (.inr (.inr (.inl (exists_symbol?_iff.mp ⟨k, Kind.symbol?_eq_some_iff.mpr hk⟩))))

/-- A token with a digit or a point in it is a number. -/
theorem Fits.exists_numeral (h : Fits t rest) {c : Char} (hc : c ∈ t.lexeme.toList)
    (hnumeral : Numeral.InNumeral c) :
    ∃ n : Numeral, t.lexeme.toList = n.chars ∧ n.Digital ∧ n.Stops rest ∧
      n.value.isFinite = true := by
  cases h with
  | name _ hletters _ =>
    exfalso
    rw [String.toList_ofList] at hc
    have halpha := hletters c hc
    rcases hnumeral with hdigit | rfl
    · rw [Text.isAlpha_of_isDigit hdigit] at halpha
      cases halpha
    · exact absurd halpha (by decide)
  | @number n _ _ hdigital hfinite hlongest =>
    exact ⟨n, String.toList_ofList, hdigital, (Numeral.stops_iff_longest hdigital).mpr hlongest,
      hfinite⟩
  | @sign k d _ _ hk =>
    exfalso
    rw [toList_toString, List.mem_singleton] at hc
    subst hc
    rcases plain_of_symbol? (Kind.symbol?_eq_some_iff.mpr hk) with ⟨-, -, hdigit, hpoint⟩
    rcases hnumeral with h | h
    · rw [hdigit] at h
      cases h
    · exact hpoint h

/-- Where a digit follows a token, a numeral starts. -/
theorem Fits.apart (h : Fits t rest) {c : Char} (hc : c ∈ rest.head?) (hdigit : c.isDigit = true) :
    Numeral.Apart t.lexeme.toList := by
  intro d hd hnumeral
  rcases h.exists_numeral (List.mem_of_getLast? hd) hnumeral with ⟨n, -, -, hstops, -⟩
  rw [(hstops c hc).1] at hdigit
  cases hdigit

/-- The characters are all in their places. -/
structure Lexical (cs : List Char) : Prop where
  /-- There are no other characters than those of tokens and blanks. -/
  alphabet : ∀ c ∈ cs, Starts c ∨ c = '.'
  /-- A point follows a run of digits, and that does not follow a point itself. -/
  points : ∀ before after, cs = before ++ '.' :: after →
    ∃ pre digits, before = pre ++ digits ∧ digits ≠ [] ∧ (∀ d ∈ digits, d.isDigit = true) ∧
      Numeral.Apart pre
  /-- The numerals are finite. -/
  finite : ∀ (before : List Char) (n : Numeral) (after : List Char),
    cs = before ++ n.chars ++ after → Numeral.Apart before → n.Digital → n.Stops after →
      n.value.isFinite = true

/-- No numeral starts with a blank. -/
theorem isBlank_of_inNumeral {c : Char} (h : Numeral.InNumeral c) : isBlank c = false := by
  rcases h with hdigit | rfl
  · exact isBlank_of_isAlphanum (Bool.or_eq_true_iff.mpr (.inr hdigit))
  · decide

namespace Lexical

theorem nil : Lexical [] := by
  refine ⟨by simp, by simp, fun before n after heq _ hn _ => ?_⟩
  rcases hn.exists_cons with ⟨c, ds, hchars, -⟩
  simp [hchars] at heq

theorem blank {c : Char} (hc : isBlank c = true) (h : Lexical cs) : Lexical (c :: cs) := by
  have hnumeral : ¬ Numeral.InNumeral c := by
    intro hnumeral
    rw [isBlank_of_inNumeral hnumeral] at hc
    cases hc
  refine ⟨?_, ?_, ?_⟩
  · exact List.forall_mem_cons.mpr ⟨.inl (.inr (.inr (.inr (isBlank_iff.mp hc)))), h.alphabet⟩
  · intro before after heq
    rcases before with _ | ⟨d, before⟩
    · exact absurd (.inr (List.cons.inj heq).1) hnumeral
    rcases List.cons.inj heq with ⟨rfl, htail⟩
    rcases h.points before after htail with ⟨pre, digits, rfl, hne, hdigits, hpre⟩
    refine ⟨c :: pre, digits, rfl, hne, hdigits, Numeral.apart_append [c] hpre fun _ => ?_⟩
    rintro d ⟨⟩
    exact hnumeral
  · intro before n after heq hbefore hn hstops
    rcases before with _ | ⟨d, before⟩
    · rcases hn.exists_cons with ⟨d, ds, hchars, hdigit⟩
      rw [hchars] at heq
      rw [← (List.cons.inj heq).1] at hdigit
      exact absurd (.inl hdigit) hnumeral
    · exact h.finite before n after (List.cons.inj heq).2 (hbefore.of_append [d]) hn hstops

theorem token (hfits : Fits t rest) (h : Lexical rest) : Lexical (t.lexeme.toList ++ rest) := by
  refine ⟨?_, ?_, ?_⟩
  · intro c hc
    rcases List.mem_append.mp hc with hc | hc
    · exact hfits.starts c hc
    · exact h.alphabet c hc
  · intro before after heq
    rcases List.append_eq_append_iff.mp heq with ⟨l, rfl, hl⟩ | ⟨l, hl, hrest⟩
    · -- The point stands behind the token, and so do the digits before it.
      rcases h.points l after hl with ⟨pre, digits, rfl, hne, hdigits, hpre⟩
      refine ⟨t.lexeme.toList ++ pre, digits, by simp, hne, hdigits,
        Numeral.apart_append _ hpre fun hnil => ?_⟩
      subst hnil
      rcases digits with _ | ⟨d, digits⟩
      · exact absurd rfl hne
      · refine hfits.apart (c := d) ?_ (hdigits d List.mem_cons_self)
        rw [hl]
        rfl
    · rcases l with _ | ⟨c, l⟩
      · -- No text starts with a point.
        rcases h.points [] after hrest.symm with ⟨pre, digits, hnil, hne, -, -⟩
        exact absurd (List.append_eq_nil_iff.mp hnil.symm).2 hne
      · rcases List.cons.inj hrest with ⟨rfl, -⟩
        rcases hfits.exists_numeral (c := '.') (by simp [hl]) (.inr rfl) with
          ⟨n, hn, hdigital, -, -⟩
        rcases hdigital.split_point (hn.symm.trans hl) with ⟨rfl, -⟩
        exact ⟨[], n.whole, rfl, hdigital.whole_ne, hdigital.whole, Numeral.apart_nil⟩
  · intro before n after heq hbefore hn hstops
    rw [List.append_assoc] at heq
    rcases List.append_eq_append_iff.mp heq with ⟨l, rfl, hl⟩ | ⟨l, hl, hrest⟩
    · rw [← List.append_assoc] at hl
      exact h.finite l n after hl (hbefore.of_append _) hn hstops
    rcases hn.exists_cons with ⟨c, ds, hchars, hdigit⟩
    rcases l with _ | ⟨d, l⟩
    · exact h.finite [] n after hrest.symm Numeral.apart_nil hn hstops
    · -- The numeral starts inside of the token, so it is the token.
      rw [hchars] at hrest
      rcases List.cons.inj hrest with ⟨rfl, -⟩
      rcases hfits.exists_numeral (c := c) (by simp [hl]) (.inl hdigit) with
        ⟨m, hm, hdigital, hstops', hfinite⟩
      rcases List.eq_nil_or_concat' before with rfl | ⟨pre, e, rfl⟩
      · rw [hm, List.nil_append] at heq
        rw [← hdigital.eq_of_stops hn hstops' hstops heq]
        exact hfinite
      · have he : e ∈ m.chars := by
          rw [← hm, hl]
          simp
        exact absurd (hdigital.chars_plain e he) (hbefore e (by simp))

end Lexical

theorem lexical_of_reads (h : Reads [] column cs us) : Lexical cs := by
  induction h with
  | nil => exact .nil
  | blank hblank _ ih => exact .blank hblank ih
  | token hfits _ ih =>
    rw [List.append_nil] at hfits
    exact .token hfits ih

/-- Where a digit follows what was read, a numeral starts. -/
theorem Reads.apart (h : Reads rest column cs us) {c : Char} (hc : c ∈ rest.head?)
    (hdigit : c.isDigit = true) : Numeral.Apart cs := by
  intro d hd
  rcases List.eq_nil_or_concat' cs with rfl | ⟨before, e, rfl⟩
  · cases hd
  rw [List.getLast?_concat] at hd
  cases hd
  intro hnumeral
  rcases h.fits_last (isBlank_of_inNumeral hnumeral) with ⟨-, l, t, -, hlexeme, hfits⟩
  exact hfits.apart hc hdigit d (by simp [hlexeme]) hnumeral

/-- Where scanning halts in such a text, there are no characters left. -/
theorem Lexical.exists_ok (h : Lexical (cs ++ rest)) (hreads : Reads rest column cs us)
    {place : Nat} {result : Except ScanError (List Token)} (hhalts : Halts place rest result) :
    ∃ tokens, result = .ok tokens := by
  cases hhalts with
  | stop => exact ⟨_, rfl⟩
  | @unexpected c ds hc =>
    exfalso
    -- The character is a point behind digits, and the numeral before it has no point yet.
    obtain rfl : c = '.' := (h.alphabet c (by simp)).resolve_left hc
    rcases h.points cs ds rfl with ⟨pre, digits, rfl, hne, hdigits, hpre⟩
    rcases List.eq_nil_or_concat' digits with rfl | ⟨whole, d, rfl⟩
    · exact hne rfl
    have hd : d.isDigit = true := hdigits d (by simp)
    rw [← List.append_assoc] at hreads
    rcases hreads.fits_last (isBlank_of_inNumeral (.inl hd)) with
      ⟨before, l, t, heq, hlexeme, hfits⟩
    rcases hfits.exists_numeral (c := d) (by simp [hlexeme]) (.inl hd) with
      ⟨n, hn, hdigital, hstops, -⟩
    rcases n with ⟨digits, _ | fraction⟩
    · exact (hstops '.' rfl).2 rfl rfl
    · have hpoint : (before ++ digits) ++ '.' :: fraction = pre ++ (whole ++ [d]) := by
        rw [← List.append_assoc, heq, List.append_assoc, List.append_assoc, ← hlexeme, hn]
        rfl
      exact Numeral.not_apart_of_point hpoint hdigital.fraction hdigits hpre
  | @invalid n ds hdigital hstops hvalue =>
    exfalso
    rcases hdigital.exists_cons with ⟨c, ds', hchars, hdigit⟩
    have hapart := hreads.apart (c := c) (by simp [hchars]) hdigit
    rw [← List.append_assoc] at h
    rw [h.finite cs n ds rfl hapart hdigital hstops] at hvalue
    cases hvalue

end Token

namespace ScanError

open Token

/-- What a cause says about `rest`, where the error is behind `before`. An unexpected character
    is the first one there and starts nothing. An invalid number is the longest numeral there
    and not finite. A text that goes on in another way behind the one or the other fails with the
    same error, if what follows does not go on with the numeral. -/
def Cause.Forced (before rest : List Char) : Cause → Prop
  | .unexpectedCharacter c => rest.head? = some c ∧ ¬ Starts c ∧ ∀ more : List Char,
      scan (String.ofList (before ++ c :: more)) =
        .error ⟨before.length + 1, .unexpectedCharacter c⟩
  | .invalidNumber lexeme => ∃ n : Numeral, lexeme = String.ofList n.chars ∧ n.Digital ∧
      n.chars <+: rest ∧
      (∀ m : Numeral, m.Digital → m.chars <+: rest → m.chars.length ≤ n.chars.length) ∧
      n.value.isFinite = false ∧ ∀ more, n.Stops more →
        scan (String.ofList (before ++ n.chars ++ more)) =
          .error ⟨before.length + 1, .invalidNumber lexeme⟩

/-- An error that the text up to it forces. The characters before its column are a text that
    has tokens, and its cause is what stands there. -/
def Forced (err : ScanError) (cs : List Char) : Prop :=
  ∃ before rest, cs = before ++ rest ∧ err.column = before.length + 1 ∧
    (∃ tokens, scan (String.ofList before) = .ok tokens) ∧ err.cause.Forced before rest

end ScanError

namespace Token

section Texts

variable {before rest : List Char} {us : List Token}

/-- The outcome of scanning is decided where it halts. -/
theorem Reads.scan_eq (h : Reads rest 1 before us) {result : Except ScanError (List Token)}
    (hhalts : Halts (before.length + 1) rest result) :
    scan (String.ofList (before ++ rest)) = (us ++ ·) <$> result := by
  unfold scan
  rw [String.toList_ofList, h.scanFrom_append, Nat.add_comm, hhalts.scanFrom_eq]

/-- A text that goes on with the same character is read as far, and fails where the other one
    does. -/
theorem Reads.scan_eq_error (h : Reads rest 1 before us) (more : List Char)
    (heq : more.head? = rest.head?) {err : ScanError}
    (hhalts : Halts (before.length + 1) more (.error err)) :
    scan (String.ofList (before ++ more)) = .error err :=
  (h.of_head?_eq heq).scan_eq hhalts

theorem forced_of_halts {err : ScanError} (h : Reads rest 1 before us)
    (hhalts : Halts (before.length + 1) rest (.error err)) : err.Forced (before ++ rest) := by
  have hbefore : ∃ tokens, scan (String.ofList before) = .ok tokens := by
    have hscan := h.to_nil.scan_eq .stop
    rw [List.append_nil] at hscan
    exact ⟨_, hscan⟩
  cases hhalts with
  | unexpected hc =>
    refine ⟨before, _, rfl, rfl, hbefore, rfl, hc, fun more => ?_⟩
    exact h.scan_eq_error (_ :: more) rfl (.unexpected hc)
  | @invalid n cs hdigital hstops hvalue =>
    refine ⟨before, _, rfl, rfl, hbefore, n, rfl, hdigital, List.prefix_append _ _,
      (Numeral.stops_iff_longest hdigital).mp hstops, hvalue, fun more hmore => ?_⟩
    rw [List.append_assoc]
    refine h.scan_eq_error _ ?_ (.invalid hdigital hmore hvalue)
    -- Both texts go on with the first digit of the numeral.
    rcases hdigital.exists_cons with ⟨c, ds, hchars, -⟩
    rw [hchars]
    rfl

end Texts

/-- A text has tokens exactly if its characters are all in their places. Otherwise the text up
    to the error forces it. -/
theorem scan_error_exact (text : String) :
    (∀ err, scan text = .error err → err.Forced text.toList) ∧
      ((∃ tokens, scan text = .ok tokens) ↔ Lexical text.toList) := by
  rcases exists_reads 1 text.toList with ⟨before, rest, us, result, htext, hreads, hhalts⟩
  rw [Nat.add_comm] at hhalts
  have hscan := hreads.scan_eq hhalts
  rw [← htext, String.ofList_toList] at hscan
  refine ⟨fun err herr => ?_, ?_, fun hlexical => ?_⟩
  · rw [hscan] at herr
    rw [error_of_map_eq_error herr] at hhalts
    rw [htext]
    exact forced_of_halts hreads hhalts
  · rintro ⟨tokens, htokens⟩
    rw [hscan] at htokens
    rcases ok_of_map_eq_ok htokens with ⟨ts, rfl, -⟩
    cases hhalts with
    | stop =>
      rw [htext, List.append_nil]
      exact lexical_of_reads hreads
  · rw [htext] at hlexical
    rcases hlexical.exists_ok hreads hhalts with ⟨ts, rfl⟩
    exact ⟨us ++ ts, hscan⟩

/-- A point behind a letter, and a numeral of more digits than a float can have. -/
theorem scan_error_exact_point :
    scan "x.5" = .error ⟨2, .unexpectedCharacter '.'⟩ ∧
      ScanError.Forced ⟨2, .unexpectedCharacter '.'⟩ "x.5".toList ∧ ¬ Lexical "x.5".toList ∧
      ∃ text, scan text = .error ⟨1, .invalidNumber text⟩ ∧
        ScanError.Forced ⟨1, .invalidNumber text⟩ text.toList := by
  have hpoint : scan "x.5" = .error ⟨2, .unexpectedCharacter '.'⟩ := by cbv
  let n : Numeral := ⟨List.replicate 309 '9', none⟩
  have hdigital : n.Digital := by
    refine ⟨List.replicate_eq_nil_iff _ |>.not.mpr (by decide), fun c hc => ?_,
      fun c hc => absurd hc List.not_mem_nil⟩
    rw [List.eq_of_mem_replicate hc]
    decide
  have hvalue : n.value.isFinite = false := by decide +kernel
  have hlarge :
      scan (String.ofList n.chars) = .error ⟨1, .invalidNumber (String.ofList n.chars)⟩ := by
    have hscan := Reads.nil.scan_eq (.invalid hdigital n.stops_nil hvalue)
    rw [List.append_nil] at hscan
    exact hscan
  refine ⟨hpoint, (scan_error_exact "x.5").1 _ hpoint, fun hlexical => ?_, String.ofList n.chars,
    hlarge, (scan_error_exact _).1 _ hlarge⟩
  rcases (scan_error_exact "x.5").2.mpr hlexical with ⟨tokens, htokens⟩
  rw [hpoint] at htokens
  cases htokens

end Token

end ZPlane
