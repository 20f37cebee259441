import Mathlib
import ZPlane.Proofs.Token.Scans

/-!
# Spelling

Characters spell a word when scanning finds its tokens and nothing else. The columns of the
tokens are forgotten, so a spelling can stand anywhere in a text.

Spellings can be put one after another where the second cannot go on with the last token of
the first: a name goes on with letters, and a numeral with digits and a point. Symbols and
blanks go on with nothing, so whatever is put in parentheses keeps its tokens.

## Main definitions

* `Token.Breaks`: Characters that go on with no token.
* `Token.Spells`: Characters with the kinds of their tokens.

## Theorems

* `Token.scanFrom_of_scans`: Scanning finds whatever the relation says.
* `Token.Scans.append`: Tokens of characters that are put together.
* `Token.Scans.move`: Tokens of characters that stand elsewhere.
* `Token.Spells.append`: Spellings that are put together.
* `Token.spells_iff_scan`: What a text spells.
-/

namespace ZPlane

section Runs

variable {α : Type} {p : α → Bool}

/-- A run of elements ends where it did, if what is put behind it does not go on with it. -/
theorem takeWhile_append_of_head {rest : List α} (h : ∀ a ∈ rest.head?, p a = false)
    (l : List α) : (l ++ rest).takeWhile p = l.takeWhile p := by
  induction l with
  | nil =>
    cases rest with
    | nil => rfl
    | cons a rest => simp [h a rfl]
  | cons a l ih => simp only [List.cons_append, List.takeWhile_cons, ih]

theorem dropWhile_append_of_head {rest : List α} (h : ∀ a ∈ rest.head?, p a = false)
    (l : List α) : (l ++ rest).dropWhile p = l.dropWhile p ++ rest := by
  induction l with
  | nil =>
    cases rest with
    | nil => rfl
    | cons a rest => simp [h a rfl]
  | cons a l ih =>
    rw [List.cons_append, List.dropWhile_cons, List.dropWhile_cons, ih]
    split <;> rfl

/-- What follows a run does not go on with it. -/
theorem head?_dropWhile {l : List α} {a : α} (ha : a ∈ (l.dropWhile p).head?) : p a = false := by
  have hnot := List.head?_dropWhile_not p l
  rw [Option.mem_def.mp ha] at hnot
  simpa using hnot

end Runs

namespace Token

/-- Characters that go on with no token: they do not start with a letter, a digit or a
    point. -/
def Breaks (cs : List Char) : Prop :=
  ∀ c ∈ cs.head?, c.isAlpha = false ∧ c.isDigit = false ∧ c ≠ '.'

end Token

namespace Numeral

variable {rest : List Char}

theorem take_append (h : Token.Breaks rest) (c : Char) (cs : List Char) :
    take c (cs ++ rest) = take c cs := by
  have hdigit : ∀ d ∈ rest.head?, d.isDigit = false := fun d hd => (h d hd).2.1
  unfold take
  rw [takeWhile_append_of_head hdigit, dropWhile_append_of_head hdigit]
  -- The fraction is decided by what follows the digits: in `cs` if anything is left of it.
  cases cs.dropWhile Char.isDigit with
  | nil =>
    cases rest with
    | nil => rfl
    | cons d rest => simp [(h d rfl).2.2]
  | cons d ds =>
    by_cases hd : d = '.'
    · simp [hd, takeWhile_append_of_head hdigit]
    · simp [hd]

theorem drop_append (h : Token.Breaks rest) (cs : List Char) :
    drop (cs ++ rest) = drop cs ++ rest := by
  have hdigit : ∀ d ∈ rest.head?, d.isDigit = false := fun d hd => (h d hd).2.1
  unfold drop
  rw [dropWhile_append_of_head hdigit]
  cases cs.dropWhile Char.isDigit with
  | nil =>
    cases rest with
    | nil => rfl
    | cons d rest => simp [(h d rfl).2.2]
  | cons d ds =>
    by_cases hd : d = '.'
    · simp [hd, dropWhile_append_of_head hdigit]
    · simp [hd]

end Numeral

namespace Token

variable {column : Nat} {cs rest : List Char} {ts us : List Token}

/-- Scanning finds whatever the relation says. -/
theorem scanFrom_of_scans (h : Scans column cs ts) : scanFrom column cs = .ok ts := by
  induction h with
  | stop => rw [scanFrom]
  | blank hblank _ ih =>
    rw [scanFrom, if_pos hblank]
    exact ih
  | name hblank halpha _ ih =>
    rw [scanFrom, if_neg (by simp [hblank]), if_pos halpha]
    simp only [ih]
    rfl
  | number hblank halpha hdigit hfinite _ ih =>
    rw [scanFrom, if_neg (by simp [hblank]), if_neg (by simp [halpha]), if_pos hdigit]
    simp only [if_pos hfinite, ih]
    rfl
  | symbol hblank halpha hdigit hkind _ ih =>
    rw [scanFrom, if_neg (by simp [hblank]), if_neg (by simp [halpha]), if_neg (by simp [hdigit])]
    simp only [hkind, ih]
    rfl

namespace Scans

theorem ne_nil (h : Scans column cs ts) : ts ≠ [] := by
  induction h with
  | blank _ _ ih => exact ih
  | _ => simp

/-- Before the last token stand those of the word. -/
theorem word_eq (h : Scans column cs ts) : word ts = ts.dropLast.map kind := by
  rcases h.shape with ⟨us, last, rfl, hlast, hus⟩
  rw [word_append (fun u hu => (hus u hu).ne_endOfText) hlast, List.dropLast_concat]

/-- Tokens of characters that are put together: the end of the first part is no end of the
    whole. -/
theorem append (h : Scans column cs us) (hbreaks : Breaks rest)
    (hrest : Scans (column + cs.length) rest ts) :
    Scans column (cs ++ rest) (us.dropLast ++ ts) := by
  induction h with
  | stop => exact hrest
  | blank hblank _ ih =>
    refine .blank hblank (ih ?_)
    rwa [Nat.add_right_comm, Nat.add_assoc, ← List.length_cons]
  | @name column c cs us hblank halpha h ih =>
    have hletter : ∀ d ∈ rest.head?, d.isAlpha = false := fun d hd => (hbreaks d hd).1
    rw [List.dropLast_cons_of_ne_nil h.ne_nil]
    have hwhole := @Scans.name column c (cs ++ rest) (us.dropLast ++ ts) hblank halpha
    rw [takeWhile_append_of_head hletter, dropWhile_append_of_head hletter] at hwhole
    refine hwhole (ih ?_)
    -- The name and what follows it make up the characters.
    have hlength := congrArg List.length (cs.takeWhile_append_dropWhile (p := Char.isAlpha))
    rw [List.length_append] at hlength
    have hcolumn : column + (c :: cs.takeWhile Char.isAlpha).length +
        (cs.dropWhile Char.isAlpha).length = column + (c :: cs).length := by
      simp only [List.length_cons]
      omega
    rwa [hcolumn]
  | @number column c cs us hblank halpha hdigit hfinite h ih =>
    rw [List.dropLast_cons_of_ne_nil h.ne_nil]
    have hwhole := @Scans.number column c (cs ++ rest) (us.dropLast ++ ts) hblank halpha hdigit
    rw [Numeral.take_append hbreaks, Numeral.drop_append hbreaks] at hwhole
    refine hwhole hfinite (ih ?_)
    have hlength := congrArg List.length (Numeral.chars_take_append_drop c cs)
    rw [List.length_append] at hlength
    have hcolumn : column + (Numeral.take c cs).chars.length + (Numeral.drop cs).length =
        column + (c :: cs).length := by
      omega
    rwa [hcolumn]
  | symbol hblank halpha hdigit hkind h ih =>
    rw [List.dropLast_cons_of_ne_nil h.ne_nil]
    refine .symbol hblank halpha hdigit hkind (ih ?_)
    rwa [Nat.add_right_comm, Nat.add_assoc, ← List.length_cons]

/-- Tokens of characters that stand `n` columns further on. -/
theorem move (h : Scans column cs ts) (n : Nat) :
    Scans (column + n) cs (ts.map fun t => { t with column := t.column + n }) := by
  induction h with
  | stop => exact .stop
  | blank hblank _ ih =>
    rw [Nat.add_right_comm] at ih
    exact .blank hblank ih
  | name hblank halpha _ ih =>
    rw [Nat.add_right_comm] at ih
    exact .name hblank halpha ih
  | number hblank halpha hdigit hfinite _ ih =>
    rw [Nat.add_right_comm] at ih
    exact .number hblank halpha hdigit hfinite ih
  | symbol hblank halpha hdigit hkind _ ih =>
    rw [Nat.add_right_comm] at ih
    exact .symbol hblank halpha hdigit hkind ih

end Scans

/-- A symbol is no blank, and goes on with no token. -/
theorem plain_of_symbol? {c : Char} {k : Kind} (h : symbol? c = some k) :
    isBlank c = false ∧ c.isAlpha = false ∧ c.isDigit = false ∧ c ≠ '.' := by
  unfold symbol? at h
  split at h <;> cases h <;> decide

theorem isBlank_of_isAlphanum {c : Char} (h : c.isAlphanum = true) : isBlank c = false := by
  by_contra hblank
  simp only [isBlank, Bool.not_eq_false, Bool.or_eq_true, beq_iff_eq] at hblank
  rcases hblank with ((rfl | rfl) | rfl) | rfl <;> exact absurd h (by decide)

theorem breaks_of_symbol? {c : Char} {k : Kind} (h : symbol? c = some k) (cs : List Char) :
    Breaks (c :: cs) := by
  rintro d ⟨⟩
  exact (plain_of_symbol? h).2

/-- Characters with the kinds of their tokens. -/
def Spells (cs : List Char) (ks : List Kind) : Prop :=
  ∃ ts, Scans 1 cs ts ∧ ts.dropLast.map kind = ks

/-- What a text spells is the word of its tokens. -/
theorem spells_iff_scan {text : String} {ks : List Kind} :
    Spells text.toList ks ↔ ∃ ts, scan text = .ok ts ∧ word ts = ks := by
  constructor
  · rintro ⟨ts, hts, rfl⟩
    exact ⟨ts, scanFrom_of_scans hts, hts.word_eq⟩
  · rintro ⟨ts, hscan, rfl⟩
    have hts := scans_of_scanFrom hscan
    exact ⟨ts, hts, hts.word_eq.symm⟩

/-- Tokens that stand elsewhere are of the same kinds. -/
theorem kinds_move (ts : List Token) (n : Nat) :
    (ts.map fun t : Token => { t with column := t.column + n }).dropLast.map kind =
      ts.dropLast.map kind := by
  rw [← List.map_dropLast, List.map_map]
  rfl

namespace Spells

variable {ks ls : List Kind}

theorem nil : Spells [] [] :=
  ⟨_, .stop, rfl⟩

/-- Spellings that are put together, where the second does not go on with the first. -/
theorem append (h : Spells cs ks) (hbreaks : Breaks rest) (hrest : Spells rest ls) :
    Spells (cs ++ rest) (ks ++ ls) := by
  rcases h with ⟨us, hus, rfl⟩
  rcases hrest with ⟨ts, hts, rfl⟩
  refine ⟨_, hus.append hbreaks (hts.move cs.length), ?_⟩
  have hne : (ts.map fun t : Token => { t with column := t.column + cs.length }) ≠ [] := by
    simpa using hts.ne_nil
  rw [List.dropLast_append_of_ne_nil hne, List.map_append, kinds_move]

/-- A blank in front of a spelling. -/
theorem blank {c : Char} (hc : isBlank c = true) (h : Spells cs ks) : Spells (c :: cs) ks := by
  rcases h with ⟨ts, hts, rfl⟩
  exact ⟨_, .blank hc (hts.move 1), kinds_move ts 1⟩

/-- A symbol in front of a spelling. -/
theorem symbol {c : Char} {k : Kind} (hc : symbol? c = some k) (h : Spells cs ks) :
    Spells (c :: cs) (k :: ks) := by
  rcases h with ⟨ts, hts, rfl⟩
  rcases plain_of_symbol? hc with ⟨hblank, halpha, hdigit, -⟩
  refine ⟨_, .symbol hblank halpha hdigit hc (hts.move 1), ?_⟩
  have hne : (ts.map fun t : Token => { t with column := t.column + 1 }) ≠ [] := by
    simpa using hts.ne_nil
  rw [List.dropLast_cons_of_ne_nil hne, List.map_cons, kinds_move]

/-- A name spells itself. -/
theorem name {x : String} (hne : x.toList ≠ []) (h : ∀ c ∈ x.toList, c.isAlpha = true) :
    Spells x.toList [.identifier x] := by
  rcases hx : x.toList with _ | ⟨c, cs⟩
  · exact absurd hx hne
  rw [hx] at h
  have hc := h c List.mem_cons_self
  have hblank := isBlank_of_isAlphanum (Bool.or_eq_true_iff.mpr (.inl hc))
  have hcs : ∀ d ∈ cs, d.isAlpha = true := fun d hd => h d (List.mem_cons_of_mem _ hd)
  have hwhole : Scans 1 (c :: cs) _ :=
    .name hblank hc (by rw [List.dropWhile_eq_nil_iff.mpr hcs]; exact .stop)
  refine ⟨_, hwhole, ?_⟩
  rw [List.takeWhile_eq_self_iff.mpr hcs, ← hx, String.ofList_toList]
  rfl

end Spells

end Token

end ZPlane
