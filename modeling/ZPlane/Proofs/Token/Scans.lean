import ZPlane.Proofs.Outcome
import ZPlane.Token.Scan

/-!
# What Scanning Finds

`Token.scanFrom` is one recursion over the characters. `Scans` is the relation of
the characters to their tokens, one constructor for each thing that can stand at
the front: a blank, a name, a numeral, a symbol, or the end.

Whatever is true of every token that can be found is then an induction with five
cases. The tokens of a text are proper ones with the end of the text behind them,
and no token before the last is an end.

## Main definitions

* `Token.Scans`: Characters with their tokens.
* `Token.Kind.Proper`: What is true of every token before the end of a text.
* `Token.word`: The kinds of the tokens before the end of the text.

## Theorems

* `Token.scans_of_scanFrom`: Scanning finds what the relation says.
* `Token.Scans.shape`: Proper tokens, and the end of the text behind them.
* `Token.exists_of_scan`: The tokens of a text.
-/

namespace ZPlane

namespace Token

/-- Characters with their tokens, the first of which stands at `column`. -/
inductive Scans : Nat → List Char → List Token → Prop
  | stop {column : Nat} : Scans column [] [⟨.endOfText, "", column⟩]
  | blank {column : Nat} {c : Char} {cs : List Char} {ts : List Token} :
      isBlank c = true → Scans (column + 1) cs ts → Scans column (c :: cs) ts
  | name {column : Nat} {c : Char} {cs : List Char} {ts : List Token} :
      isBlank c = false → c.isAlpha = true →
      Scans (column + (c :: cs.takeWhile Char.isAlpha).length) (cs.dropWhile Char.isAlpha) ts →
      Scans column (c :: cs)
        (⟨.identifier (String.ofList (c :: cs.takeWhile Char.isAlpha)),
          String.ofList (c :: cs.takeWhile Char.isAlpha), column⟩ :: ts)
  | number {column : Nat} {c : Char} {cs : List Char} {ts : List Token} :
      isBlank c = false → c.isAlpha = false → c.isDigit = true →
      (Numeral.take c cs).value.isFinite = true →
      Scans (column + (Numeral.take c cs).chars.length) (Numeral.drop cs) ts →
      Scans column (c :: cs)
        (⟨.number (Numeral.take c cs).value, String.ofList (Numeral.take c cs).chars, column⟩ ::
          ts)
  | symbol {column : Nat} {c : Char} {cs : List Char} {ts : List Token} {kind : Kind} :
      isBlank c = false → c.isAlpha = false → c.isDigit = false → symbol? c = some kind →
      Scans (column + 1) cs ts → Scans column (c :: cs) (⟨kind, c.toString, column⟩ :: ts)

/-- Scanning finds what the relation says. -/
theorem scans_of_scanFrom {column : Nat} {cs : List Char} {ts : List Token}
    (h : scanFrom column cs = .ok ts) : Scans column cs ts := by
  fun_induction scanFrom column cs generalizing ts with
  | case1 column =>
      cases h
      exact .stop
  | case2 column c cs hblank ih => exact .blank hblank (ih h)
  | case3 column c cs hblank halpha =>
      rename_i ih
      rcases ok_of_map_eq_ok h with ⟨us, hus, rfl⟩
      exact .name (by simpa using hblank) halpha (ih hus)
  | case4 column c cs hblank halpha hdigit =>
      rename_i hfinite ih
      rcases ok_of_map_eq_ok h with ⟨us, hus, rfl⟩
      exact .number (by simpa using hblank) (by simpa using halpha) hdigit hfinite (ih hus)
  | case5 column c cs hblank halpha hdigit => cases h
  | case6 column c cs hblank halpha hdigit kind hkind ih =>
      rcases ok_of_map_eq_ok h with ⟨us, hus, rfl⟩
      exact .symbol (by simpa using hblank) (by simpa using halpha) (by simpa using hdigit) hkind
        (ih hus)
  | case7 column c cs hblank halpha hdigit hkind => cases h

/-- What is true of every token before the end of a text. -/
def Kind.Proper : Kind → Prop
  | .identifier x => x.toList ≠ [] ∧ ∀ c ∈ x.toList, c.isAlpha = true
  | .number v => v.isFinite = true ∧ ∃ numeral : Numeral, v = numeral.value
  | .endOfText => False
  | _ => True

theorem Kind.Proper.ne_endOfText {k : Kind} (h : k.Proper) : k ≠ .endOfText := by
  rintro rfl
  exact h

/-- The tokens found are proper ones, with the end of the text behind them. -/
theorem Scans.shape {column : Nat} {cs : List Char} {ts : List Token} (h : Scans column cs ts) :
    ∃ us last, ts = us ++ [last] ∧ last.kind = .endOfText ∧ ∀ u ∈ us, u.kind.Proper := by
  induction h with
  | @stop column => exact ⟨[], ⟨.endOfText, "", column⟩, rfl, rfl, by simp⟩
  | blank _ _ ih => exact ih
  | @name column c cs _ _ halpha _ ih =>
      rcases ih with ⟨us, last, rfl, hlast, hus⟩
      refine ⟨_ :: us, last, rfl, hlast, List.forall_mem_cons.mpr ⟨⟨by simp, ?_⟩, hus⟩⟩
      intro d hd
      rw [String.toList_ofList, List.mem_cons] at hd
      rcases hd with rfl | hd
      · exact halpha
      · exact List.all_eq_true.mp List.all_takeWhile d hd
  | number _ _ _ hfinite _ ih =>
      rcases ih with ⟨us, last, rfl, hlast, hus⟩
      exact ⟨_ :: us, last, rfl, hlast, List.forall_mem_cons.mpr ⟨⟨hfinite, _, rfl⟩, hus⟩⟩
  | @symbol column c cs _ kind _ _ _ hkind _ ih =>
      rcases ih with ⟨us, last, rfl, hlast, hus⟩
      refine ⟨_ :: us, last, rfl, hlast, List.forall_mem_cons.mpr ⟨?_, hus⟩⟩
      unfold symbol? at hkind
      split at hkind <;> cases hkind <;> trivial

/-- The kinds of the tokens before the end of the text. -/
def word (ts : List Token) : List Kind :=
  (ts.takeWhile fun t => decide (t.kind ≠ .endOfText)).map kind

theorem word_append {us : List Token} {last : Token} (hus : ∀ u ∈ us, u.kind ≠ .endOfText)
    (hlast : last.kind = .endOfText) : word (us ++ [last]) = us.map kind := by
  unfold word
  rw [List.takeWhile_append_of_pos (by simpa using hus)]
  simp [hlast]

/-- The tokens of a text: its word, spelled out by proper tokens, and the end. -/
theorem exists_of_scan {text : String} {ts : List Token} (h : scan text = .ok ts) :
    ∃ us last, ts = us ++ [last] ∧ last.kind = .endOfText ∧ (∀ u ∈ us, u.kind.Proper) ∧
      word ts = us.map kind := by
  rcases (scans_of_scanFrom h).shape with ⟨us, last, rfl, hlast, hus⟩
  exact ⟨us, last, rfl, hlast, hus, word_append (fun u hu => (hus u hu).ne_endOfText) hlast⟩

end Token

end ZPlane
