import ZPlane.Proofs.Token.Longest

/-!
# Tokens Tile the Text

Scanning loses nothing but blanks. Each token is a stretch of the text that starts at its
column, the stretches come in order and do not overlap, and what lies between them is blank.
Each token is also as long as it can be: no letter follows a name, and no numeral that starts
where a number does is longer.

`Tiles` says all of this about a list of tokens without a word about scanning, and there is
only one such list: whoever tiles a text arrives at the tokens that are found in it. The
argument in both directions goes from left to right. What is known about the first character
is whether a token covers it. If one does, it is the first token and starts there, and
otherwise the character is blank. Either way the rest of the text is tiled by what is left.

## Main definitions

* `Token.Kind.sign?`: The character of a kind that has only one.
* `Token.Fits`: What a token is made of, given the text behind it.
* `Token.Covers`: The columns of a token.
* `Token.Tiles`: Tokens that make up a text, but for blanks.

## Theorems

* `Token.Fits.letters`, `Token.Fits.numeral`: What is taken off a text fits what is left.
* `Token.Tiles.skip`, `Token.Tiles.token`: A blank or a token in front of a tiled text.
* `Token.tiles_of_scans`: The tokens that are found tile the text.
* `Token.scans_of_tiles`: The tokens that tile a text are found.
* `Token.Tiles.before`, `Token.scans_before`: The text before a token has the tokens before it.
* `Token.placed_of_scan`, `Token.columns_of_scan`: Where the tokens of a text stand.
* `Token.scan_eq_ok_iff_tiles`: The tokens of a text are those that tile it.
-/

namespace ZPlane

namespace Token

/-- The character of a kind that has only one. -/
def Kind.sign? : Kind → Option Char
  | .leftParen => some '('
  | .rightParen => some ')'
  | .plus => some '+'
  | .minus => some '-'
  | .star => some '*'
  | .slash => some '/'
  | .caret => some '^'
  | .equal => some '='
  | .identifier _ => none
  | .number _ => none
  | .endOfText => none

theorem Kind.symbol?_eq_some_iff {c : Char} {k : Kind} : symbol? c = some k ↔ k.sign? = some c := by
  constructor
  · intro h
    unfold symbol? at h
    split at h <;> cases h <;> rfl
  · intro h
    cases k <;> cases h <;> rfl

/-- A token and the text behind it. A name is its letters, and none follows. A number is the
    finite value of its numeral, and no numeral that starts there is longer. Every other token
    is its one character, and the end of the text is none of these. -/
inductive Fits : Token → List Char → Prop
  | name {cs rest : List Char} {column : Nat} :
      cs ≠ [] → (∀ c ∈ cs, c.isAlpha = true) → (∀ c ∈ rest.head?, c.isAlpha = false) →
      Fits ⟨.identifier (String.ofList cs), String.ofList cs, column⟩ rest
  | number {n : Numeral} {rest : List Char} {column : Nat} :
      n.Digital → n.value.isFinite = true →
      (∀ m : Numeral, m.Digital → m.chars <+: n.chars ++ rest →
        m.chars.length ≤ n.chars.length) →
      Fits ⟨.number n.value, String.ofList n.chars, column⟩ rest
  | sign {k : Kind} {c : Char} {rest : List Char} {column : Nat} :
      k.sign? = some c → Fits ⟨k, c.toString, column⟩ rest

/-- The character at a column belongs to the token. -/
def Covers (t : Token) (column : Nat) : Prop :=
  t.column ≤ column ∧ column < t.column + t.lexeme.length

/-- The tokens make up the characters, the first of which stands at `column`, but for
    blanks. -/
structure Tiles (column : Nat) (cs : List Char) (ts : List Token) : Prop where
  /-- A token is the characters at its column, and fits what follows them. -/
  placed : ∀ t ∈ ts, t.lexeme ≠ "" ∧ ∃ before after, cs = before ++ t.lexeme.toList ++ after ∧
    t.column = column + before.length ∧ Fits t after
  /-- A token ends before the next one starts. -/
  ordered : ts.Pairwise fun t u => t.column + t.lexeme.length ≤ u.column
  /-- What no token covers is blank. -/
  blank : ∀ before c after, cs = before ++ c :: after →
    (∃ t ∈ ts, t.Covers (column + before.length)) ∨ c ∈ [' ', '\t', '\r', '\n']

theorem isBlank_iff {c : Char} : isBlank c = true ↔ c ∈ [' ', '\t', '\r', '\n'] := by
  simp [isBlank, or_assoc]

theorem toList_toString (c : Char) : c.toString.toList = [c] :=
  String.toList_singleton c

theorem length_toString (c : Char) : c.toString.length = 1 :=
  String.length_singleton

variable {column : Nat} {cs rest : List Char} {t : Token} {ts : List Token}

namespace Fits

theorem lexeme_ne (h : Fits t rest) : t.lexeme ≠ "" := by
  intro hempty
  have hnil := congrArg String.toList hempty
  cases h with
  | name hne _ _ => exact hne (by simpa using hnil)
  | @number n _ _ hdigital _ _ =>
    rcases n with ⟨_ | ⟨c, whole⟩, fraction⟩
    · exact hdigital.whole_ne rfl
    · rw [Numeral.chars_cons] at hnil
      simp at hnil
  | sign _ => simp at hnil

theorem kind_ne (h : Fits t rest) : t.kind ≠ .endOfText := by
  cases h with
  | name _ _ _ => simp
  | number _ _ _ => simp
  | sign hk =>
    rintro rfl
    cases hk

/-- The letters at the front of a text are a name that fits what follows them. -/
theorem letters {c : Char} (hc : c.isAlpha = true) (cs : List Char) (column : Nat) :
    Fits ⟨.identifier (String.ofList (c :: cs.takeWhile Char.isAlpha)),
      String.ofList (c :: cs.takeWhile Char.isAlpha), column⟩ (cs.dropWhile Char.isAlpha) := by
  refine .name (by simp) ?_ fun d hd => head?_dropWhile hd
  intro d hd
  rcases List.mem_cons.mp hd with rfl | hd
  · exact hc
  · exact List.all_eq_true.mp List.all_takeWhile d hd

/-- The numeral at the front of a text, if it is finite, is a number that fits what follows. -/
theorem numeral {c : Char} (hc : c.isDigit = true) (cs : List Char) (column : Nat)
    (hfinite : (Numeral.take c cs).value.isFinite = true) :
    Fits ⟨.number (Numeral.take c cs).value, String.ofList (Numeral.take c cs).chars, column⟩
      (Numeral.drop cs) := by
  have hdigital := Numeral.digital_take hc cs
  have hlongest := (Numeral.stops_iff_longest hdigital).mp (Numeral.stops_drop c cs)
  exact .number hdigital hfinite hlongest

/-- A token that fits a text also fits every beginning of it. -/
theorem of_append {more : List Char} (h : Fits t (rest ++ more)) : Fits t rest := by
  cases h with
  | name hne hletters hstops =>
    refine .name hne hletters fun c hc => hstops c ?_
    rw [List.head?_append, Option.mem_def.mp hc]
    rfl
  | number hdigital hfinite hlongest =>
    refine .number hdigital hfinite fun m hm hstart => hlongest m hm ?_
    rw [← List.append_assoc]
    exact hstart.trans (List.prefix_append _ _)
  | sign hk => exact .sign hk

/-- A token that fits the text behind it is found in front of it. -/
theorem scans (h : Fits t rest) (hrest : Scans (t.column + t.lexeme.length) rest ts) :
    Scans t.column (t.lexeme.toList ++ rest) (t :: ts) := by
  cases h with
  | name hne hletters hstops =>
    rw [String.length_ofList] at hrest
    rw [String.toList_ofList]
    exact .letters hne hletters hstops hrest
  | number hdigital hfinite hlongest =>
    rw [String.length_ofList] at hrest
    rw [String.toList_ofList]
    exact .numeral hdigital hfinite ((Numeral.stops_iff_longest hdigital).mpr hlongest) hrest
  | sign hk =>
    have hsymbol := Kind.symbol?_eq_some_iff.mpr hk
    rcases plain_of_symbol? hsymbol with ⟨hblank, halpha, hdigit, -⟩
    rw [length_toString] at hrest
    rw [toList_toString]
    exact .symbol hblank halpha hdigit hsymbol hrest

end Fits

namespace Tiles

theorem nil : Tiles column [] [] :=
  ⟨by simp, .nil, by simp⟩

/-- A blank in front of a tiled text. -/
theorem skip {c : Char} (hc : isBlank c = true) (h : Tiles (column + 1) cs ts) :
    Tiles column (c :: cs) ts := by
  refine ⟨fun t ht => ?_, h.ordered, fun before d after heq => ?_⟩
  · rcases h.placed t ht with ⟨hne, before, after, rfl, hcolumn, hfits⟩
    refine ⟨hne, c :: before, after, rfl, ?_, hfits⟩
    rw [hcolumn, List.length_cons]
    omega
  · cases before with
    | nil =>
      cases heq
      exact .inr (isBlank_iff.mp hc)
    | cons e before =>
      rcases List.cons.inj heq with ⟨-, htail⟩
      have hcolumn : column + (e :: before).length = column + 1 + before.length := by
        rw [List.length_cons]
        omega
      rw [hcolumn]
      exact h.blank before d after htail

/-- A token in front of a tiled text. -/
theorem token (hcolumn : t.column = column) (hfits : Fits t rest)
    (h : Tiles (column + t.lexeme.length) rest ts) :
    Tiles column (t.lexeme.toList ++ rest) (t :: ts) := by
  refine ⟨?_, List.pairwise_cons.mpr ⟨fun u hu => ?_, h.ordered⟩, fun before c after heq => ?_⟩
  · intro u hu
    rcases List.mem_cons.mp hu with rfl | hu
    · exact ⟨hfits.lexeme_ne, [], rest, rfl, hcolumn, hfits⟩
    · rcases h.placed u hu with ⟨hne, before, after, rfl, hplace, hu⟩
      refine ⟨hne, t.lexeme.toList ++ before, after, by simp, ?_, hu⟩
      rw [hplace, List.length_append, String.length_toList]
      omega
  · rcases h.placed u hu with ⟨-, before, -, -, hplace, -⟩
    omega
  · -- The character lies in the token, or in the rest.
    by_cases hlt : before.length < t.lexeme.length
    · exact .inl ⟨t, List.mem_cons_self, by omega, by omega⟩
    have hstart : t.lexeme.toList <+: before := by
      refine List.prefix_of_prefix_length_le ⟨rest, rfl⟩ ⟨c :: after, heq.symm⟩ ?_
      rw [String.length_toList]
      omega
    rcases hstart with ⟨ds, rfl⟩
    rw [List.append_assoc, List.append_cancel_left_eq] at heq
    rcases h.blank ds c after heq with ⟨u, hu, hcovers⟩ | hblank
    · refine .inl ⟨u, List.mem_cons_of_mem t hu, ?_⟩
      rw [List.length_append, String.length_toList, ← Nat.add_assoc]
      exact hcovers
    · exact .inr hblank

/-- The text before a token is tiled by the tokens before it. -/
theorem before {us : List Token} (h : Tiles column cs (us ++ t :: ts)) :
    ∃ ds es, cs = ds ++ es ∧ t.column = column + ds.length ∧ Tiles column ds us := by
  rcases h.placed t (by simp) with ⟨-, ds, after, hcs, hcolumn, -⟩
  rw [List.append_assoc] at hcs
  rcases List.pairwise_append.mp h.ordered with ⟨hordered, htail, hbefore⟩
  refine ⟨ds, _, hcs, hcolumn, fun u hu => ?_, hordered, fun pre c post heq => ?_⟩
  · rcases h.placed u (List.mem_append_left _ hu) with ⟨hne, pre, post, hplace, hu', hfits⟩
    -- The token ends where the other one starts, or before that.
    have hend := hbefore u hu t List.mem_cons_self
    have hstart : pre ++ u.lexeme.toList <+: ds := by
      refine List.prefix_of_prefix_length_le ⟨post, hplace.symm⟩ ⟨_, hcs.symm⟩ ?_
      rw [List.length_append, String.length_toList]
      omega
    rcases hstart with ⟨gap, hgap⟩
    refine ⟨hne, pre, gap, hgap.symm, hu', ?_⟩
    rw [hcs, ← hgap, List.append_assoc, List.append_cancel_left_eq] at hplace
    rw [← hplace] at hfits
    exact hfits.of_append
  · rw [heq, List.append_assoc, List.cons_append] at hcs
    rcases h.blank pre c _ hcs with ⟨u, hu, hcovers⟩ | hblank
    · -- The later tokens start behind all of this.
      refine .inl ⟨u, ?_, hcovers⟩
      have hlength := congrArg List.length heq
      rw [List.length_append, List.length_cons] at hlength
      have hle : u ∈ t :: ts → t.column ≤ u.column := by
        intro hu
        rcases List.mem_cons.mp hu with rfl | hu
        · exact Nat.le_refl _
        · have := List.rel_of_pairwise_cons htail hu
          omega
      rcases List.mem_append.mp hu with hu | hu
      · exact hu
      · have := hle hu
        have := hcovers.1
        omega
    · exact .inr hblank

/-- The first token starts where the text does, if it covers the first character. -/
theorem exists_of_covers (h : Tiles column cs ts) (hcovers : ∃ t ∈ ts, t.Covers column) :
    ∃ t rest us, cs = t.lexeme.toList ++ rest ∧ ts = t :: us ∧ t.column = column ∧ Fits t rest ∧
      Tiles (column + t.lexeme.length) rest us := by
  rcases hcovers with ⟨t, ht, hle, -⟩
  rcases h.placed t ht with ⟨hne, before, rest, hcs, hcolumn, hfits⟩
  have hbefore : before = [] := List.eq_nil_of_length_eq_zero (by omega)
  subst hbefore
  rw [List.nil_append] at hcs
  rw [List.length_nil, Nat.add_zero] at hcolumn
  -- No other token can come first, since it would have to end here.
  obtain ⟨us, rfl⟩ : ∃ us, ts = t :: us := by
    rcases ts with _ | ⟨u, us⟩
    · cases ht
    · rcases List.mem_cons.mp ht with rfl | ht
      · exact ⟨us, rfl⟩
      · exfalso
        have hend := List.rel_of_pairwise_cons h.ordered ht
        rcases h.placed u List.mem_cons_self with ⟨hne', pre, -, -, hu, -⟩
        have hpos : u.lexeme.length ≠ 0 := fun hzero => hne' (String.length_eq_zero_iff.mp hzero)
        omega
  rcases List.pairwise_cons.mp h.ordered with ⟨hlater, hordered⟩
  refine ⟨t, rest, us, hcs, rfl, hcolumn, hfits, fun u hu => ?_, hordered, fun pre c post heq => ?_⟩
  · rcases h.placed u (List.mem_cons_of_mem t hu) with ⟨hne', pre, post, hplace, hu', hfits'⟩
    have hend := hlater u hu
    have hstart : t.lexeme.toList <+: pre := by
      refine List.prefix_of_prefix_length_le ⟨rest, hcs.symm⟩
        ⟨u.lexeme.toList ++ post, by rw [hplace, List.append_assoc]⟩ ?_
      rw [String.length_toList]
      omega
    rcases hstart with ⟨gap, rfl⟩
    refine ⟨hne', gap, post, ?_, ?_, hfits'⟩
    · rw [hcs, List.append_assoc, List.append_assoc, List.append_cancel_left_eq] at hplace
      rw [hplace, List.append_assoc]
    · rw [hu', List.length_append, String.length_toList]
      omega
  · rw [heq, ← List.append_assoc] at hcs
    rcases h.blank _ c post hcs with ⟨u, hu, hcovers⟩ | hblank
    · rw [List.length_append, String.length_toList, ← Nat.add_assoc] at hcovers
      rcases List.mem_cons.mp hu with rfl | hu
      · have := hcovers.2
        omega
      · exact .inl ⟨u, hu, hcovers⟩
    · exact .inr hblank

/-- A character that no token covers is blank, and the rest is tiled without it. -/
theorem of_not_covers {c : Char} (h : Tiles column (c :: cs) ts)
    (hcovers : ¬ ∃ t ∈ ts, t.Covers column) : isBlank c = true ∧ Tiles (column + 1) cs ts := by
  refine ⟨isBlank_iff.mpr ((h.blank [] c cs rfl).resolve_left hcovers), fun t ht => ?_, h.ordered,
    fun before d after heq => ?_⟩
  · rcases h.placed t ht with ⟨hne, before, after, heq, hcolumn, hfits⟩
    have hpos : t.lexeme.length ≠ 0 := fun hzero => hne (String.length_eq_zero_iff.mp hzero)
    cases before with
    | nil =>
      rw [List.length_nil] at hcolumn
      exact absurd ⟨t, ht, by omega, by omega⟩ hcovers
    | cons d before =>
      rcases List.cons.inj heq with ⟨-, htail⟩
      refine ⟨hne, before, after, htail, ?_, hfits⟩
      rw [hcolumn, List.length_cons]
      omega
  · have hcolumn : column + (c :: before).length = column + 1 + before.length := by
      rw [List.length_cons]
      omega
    rw [← hcolumn]
    exact h.blank (c :: before) d after (by rw [heq]; rfl)

end Tiles

/-- The tokens that are found tile the text. -/
theorem tiles_of_scans (h : Scans column cs ts) :
    ∃ us, ts = us ++ [⟨.endOfText, "", column + cs.length⟩] ∧ Tiles column cs us := by
  have htoken {column : Nat} {cs rest : List Char} {t : Token} {us ts : List Token}
      (hcs : cs = t.lexeme.toList ++ rest) (hcolumn : t.column = column) (hfits : Fits t rest)
      (hts : ts = us ++ [⟨.endOfText, "", column + t.lexeme.length + rest.length⟩])
      (htiles : Tiles (column + t.lexeme.length) rest us) :
      ∃ us, t :: ts = us ++ [⟨.endOfText, "", column + cs.length⟩] ∧ Tiles column cs us := by
    refine ⟨t :: us, ?_, hcs ▸ .token hcolumn hfits htiles⟩
    rw [hts, hcs, List.length_append, String.length_toList, Nat.add_assoc]
    rfl
  induction h with
  | stop => exact ⟨[], rfl, .nil⟩
  | blank hblank _ ih =>
    rcases ih with ⟨us, rfl, htiles⟩
    refine ⟨us, ?_, htiles.skip hblank⟩
    rw [List.length_cons, Nat.add_right_comm, Nat.add_assoc]
  | @name column c cs _ _ halpha _ ih =>
    rcases ih with ⟨us, hus, htiles⟩
    rw [← String.length_ofList] at hus htiles
    refine htoken ?_ rfl (.letters halpha cs column) hus htiles
    rw [String.toList_ofList, List.cons_append, List.takeWhile_append_dropWhile]
  | @number column c cs _ _ _ hdigit hfinite _ ih =>
    rcases ih with ⟨us, hus, htiles⟩
    rw [← String.length_ofList] at hus htiles
    refine htoken ?_ rfl (.numeral hdigit cs column hfinite) hus htiles
    rw [String.toList_ofList, Numeral.chars_take_append_drop]
  | @symbol column c cs _ _ _ _ _ hkind _ ih =>
    rcases ih with ⟨us, hus, htiles⟩
    rw [← length_toString c] at hus htiles
    refine htoken ?_ rfl (.sign (Kind.symbol?_eq_some_iff.mp hkind)) hus htiles
    rw [toList_toString]
    rfl

/-- The tokens that tile a text are found. -/
theorem scans_of_tiles (h : Tiles column cs ts) :
    Scans column cs (ts ++ [⟨.endOfText, "", column + cs.length⟩]) := by
  -- Whatever comes off the front leaves a shorter text.
  induction hn : cs.length using Nat.strongRecOn generalizing column cs ts with
  | ind n ih =>
    by_cases hcovers : ∃ t ∈ ts, t.Covers column
    · rcases h.exists_of_covers hcovers with ⟨t, rest, us, rfl, rfl, rfl, hfits, htiles⟩
      have hpos : t.lexeme.length ≠ 0 := by
        exact fun hzero => hfits.lexeme_ne (String.length_eq_zero_iff.mp hzero)
      rw [List.length_append, String.length_toList] at hn
      have hscans := hfits.scans (ih rest.length (by omega) htiles rfl)
      rw [← hn, ← Nat.add_assoc]
      exact hscans
    · cases cs with
      | nil =>
        -- There is no room for a token in an empty text.
        rcases ts with _ | ⟨t, ts⟩
        · rw [← hn]
          exact .stop
        · rcases h.placed t List.mem_cons_self with ⟨hne, before, after, heq, -, -⟩
          simp only [List.nil_eq, List.append_eq_nil_iff, String.toList_eq_nil_iff] at heq
          exact absurd heq.1.2 hne
      | cons c cs =>
        rcases h.of_not_covers hcovers with ⟨hblank, htiles⟩
        rw [List.length_cons] at hn
        have hscans := ih cs.length (by omega) htiles rfl
        rw [Nat.add_right_comm, Nat.add_assoc, hn] at hscans
        exact .blank hblank hscans

/-- The tokens of a text tile it, but for the end of the text behind them. -/
theorem tiles_of_scan {text : String} {tokens : List Token} (h : scan text = .ok tokens) :
    ∃ us, tokens = us ++ [⟨.endOfText, "", text.length + 1⟩] ∧
      (∀ u ∈ us, u.kind ≠ .endOfText) ∧ Tiles 1 text.toList us := by
  rcases tiles_of_scans (scans_of_scanFrom h) with ⟨us, rfl, htiles⟩
  rw [String.length_toList, Nat.add_comm]
  refine ⟨us, rfl, fun u hu => ?_, htiles⟩
  rcases htiles.placed u hu with ⟨-, _, _, -, -, hfits⟩
  exact hfits.kind_ne

/-- A token of a text is the characters at its column. The end of the text has none. -/
theorem placed_of_scan {text : String} {tokens : List Token} (h : scan text = .ok tokens)
    (ht : t ∈ tokens) : ∃ before after, text.toList = before ++ t.lexeme.toList ++ after ∧
      t.column = before.length + 1 := by
  rcases tiles_of_scan h with ⟨us, rfl, -, htiles⟩
  rcases List.mem_append.mp ht with ht | ht
  · rcases htiles.placed t ht with ⟨-, before, after, heq, hcolumn, -⟩
    exact ⟨before, after, heq, hcolumn.trans (Nat.add_comm _ _)⟩
  · rw [List.mem_singleton.mp ht]
    exact ⟨text.toList, [], by simp, by rw [String.length_toList]⟩

/-- Every token of a text stands behind those before it. -/
theorem columns_of_scan {text : String} {tokens : List Token} (h : scan text = .ok tokens) :
    tokens.Pairwise fun t u => t.column < u.column := by
  rcases tiles_of_scan h with ⟨us, rfl, -, htiles⟩
  have hpos (u : Token) (hu : u ∈ us) : 0 < u.lexeme.length := by
    rcases htiles.placed u hu with ⟨hne, -⟩
    exact Nat.pos_of_ne_zero fun hzero => hne (String.length_eq_zero_iff.mp hzero)
  refine List.pairwise_append.mpr ⟨?_, List.pairwise_singleton _ _, fun u hu v hv => ?_⟩
  · refine htiles.ordered.imp_of_mem fun {u v} hu _ hle => ?_
    have := hpos u hu
    omega
  · rcases htiles.placed u hu with ⟨-, before, after, heq, hcolumn, -⟩
    have hlength := congrArg List.length heq
    rw [List.length_append, List.length_append, String.length_toList, String.length_toList]
      at hlength
    have := hpos u hu
    rw [List.mem_singleton.mp hv]
    dsimp only
    omega

/-- No two tokens of a text have the same column. -/
theorem index_eq_of_column_eq {tokens : List Token} {j k : Nat} {u : Token}
    (h : tokens.Pairwise fun t u => t.column < u.column) (ht : tokens[j]? = some t)
    (hu : tokens[k]? = some u) (heq : t.column = u.column) : j = k := by
  rcases List.getElem?_eq_some_iff.mp ht with ⟨hj, rfl⟩
  rcases List.getElem?_eq_some_iff.mp hu with ⟨hk, rfl⟩
  have hlt := List.pairwise_iff_getElem.mp h
  rcases Nat.lt_trichotomy j k with hjk | hjk | hjk
  · have := hlt j k hj hk hjk
    omega
  · exact hjk
  · have := hlt k j hk hj hjk
    omega

/-- The text before a token has the tokens before it. -/
theorem scans_before {text : String} {before later : List Token}
    (h : scan text = .ok (before ++ t :: later)) :
    ∃ cs, Scans 1 cs (before ++ [⟨.endOfText, "", 1 + cs.length⟩]) := by
  rcases tiles_of_scan h with ⟨us, heq, -, htiles⟩
  rcases List.eq_nil_or_concat' later with rfl | ⟨later, last, rfl⟩
  · -- The token is the end, and all of the text stands before it.
    rcases List.append_inj' heq rfl with ⟨rfl, -⟩
    exact ⟨text.toList, scans_of_tiles htiles⟩
  · rw [← List.cons_append, ← List.append_assoc] at heq
    rcases List.append_inj' heq rfl with ⟨rfl, -⟩
    rcases htiles.before with ⟨cs, -, -, -, hbefore⟩
    exact ⟨cs, scans_of_tiles hbefore⟩

/-- The tokens of a text are those that tile it, with the end of the text behind them: each one
    is the text's characters at its column and as long as it can be, they come in order without
    overlap, and between them are blanks. -/
theorem scan_eq_ok_iff_tiles {text : String} {tokens : List Token} :
    scan text = .ok tokens ↔
      ∃ us, tokens = us ++ [⟨.endOfText, "", text.length + 1⟩] ∧
        (∀ u ∈ us, u.kind ≠ .endOfText) ∧ Tiles 1 text.toList us := by
  constructor
  · exact tiles_of_scan
  · rintro ⟨us, rfl, -, htiles⟩
    have hscans := scans_of_tiles htiles
    rw [String.length_toList, Nat.add_comm] at hscans
    exact scanFrom_of_scans hscans

end Token

end ZPlane
