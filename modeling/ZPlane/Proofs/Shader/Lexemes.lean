import ZPlane.Proofs.Shader.Literal
import ZPlane.Proofs.Text.Letters
import ZPlane.Proofs.Token.Spelling

/-!
# Lexemes of the Shading Language

A shader is a list of lexemes: words, selectors, literals and signs, with white space between
them where it is needed. A word goes on with letters, digits and underscores. A selector is a
word behind a point, and it names a part of a vector and nothing else. What looks like a letter
in a literal is the mark of its exponent.

Which names a shader has is a question about its words. It cannot be answered by a search in
the text, where a name may be a part of another one.

A text can be cut into lexemes piece by piece, as long as no piece starts with something that
goes on with the last lexeme of the piece before it.

## Main definitions

* `Shading.Lexeme`: A word, a selector, a literal or a sign.
* `Shading.lexemes`: The lexemes of a text.
* `Shading.declared`: The uniforms that lexemes declare.
* `Shading.Lexes`: Characters with their lexemes, whatever follows that ends a word.

## Theorems

* `Shading.lexemes_append`: The lexemes of pieces that are put together.
* `Shading.infix_of_word_mem`: The words of a text stand in it.
* `Shading.Lexes.word`, `Shading.Lexes.selector`, `Shading.Lexes.number`, `Shading.Lexes.sign`,
  `Shading.Lexes.blank`, `Shading.Lexes.append`: The lexemes of a text by its parts.
* `Shading.declared_append`: Where nothing is declared.
-/

namespace ZPlane

namespace Shading

/-- A lexeme of the shading language. -/
inductive Lexeme
  | word (w : String)
  | selector (w : String)
  | number (literal : String)
  | sign (c : Char)
deriving DecidableEq

/-- Whether a character goes on with a word. -/
def isWordChar (c : Char) : Bool :=
  c.isAlphanum || c == '_'

/-- Taking a literal off loses nothing. -/
theorem takeLiteral_fst_append_snd (marked : Bool) (cs : List Char) :
    (takeLiteral marked cs).1 ++ (takeLiteral marked cs).2 = cs := by
  induction cs generalizing marked with
  | nil => rfl
  | cons c cs ih =>
    unfold takeLiteral
    split
    · rw [List.cons_append, ih]
    · rfl

theorem takeLiteral_suffix (marked : Bool) (cs : List Char) : (takeLiteral marked cs).2 <:+ cs :=
  ⟨_, takeLiteral_fst_append_snd marked cs⟩

/-- The lexemes of a text, each as long as possible. A digit starts a literal, and a point
    that belongs to no literal starts a selector. -/
def lexemes : List Char → List Lexeme
  | [] => []
  | c :: cs =>
    if Text.isWhiteSpace c then
      lexemes cs
    else if c.isDigit then
      .number (String.ofList (c :: (takeLiteral false cs).1)) :: lexemes (takeLiteral false cs).2
    else if isWordChar c then
      .word (String.ofList (c :: cs.takeWhile isWordChar)) :: lexemes (cs.dropWhile isWordChar)
    else if c = '.' then
      .selector (String.ofList (cs.takeWhile isWordChar)) :: lexemes (cs.dropWhile isWordChar)
    else
      .sign c :: lexemes cs
termination_by cs => cs.length
decreasing_by
  · simp only [List.length_cons]; omega
  · have := (takeLiteral_suffix false cs).length_le
    simp only [List.length_cons]; omega
  · have := (cs.dropWhile_sublist isWordChar).length_le
    simp only [List.length_cons]; omega
  · have := (cs.dropWhile_sublist isWordChar).length_le
    simp only [List.length_cons]; omega
  · simp only [List.length_cons]; omega

/-- The uniform that is declared at the front, with its type. -/
def declaration? : List Lexeme → Option (String × String)
  | .word a :: .word type :: .word name :: _ =>
    if a = "uniform" then some (type, name) else none
  | _ => none

/-- The uniforms that are declared anywhere, with their types. -/
def declared (ls : List Lexeme) : List (String × String) :=
  ls.tails.filterMap declaration?

theorem isWordChar_of_isDigit {c : Char} (h : c.isDigit = true) : isWordChar c = true := by
  simp [isWordChar, Char.isAlphanum, h]

theorem not_isDigit_of_isWordChar_eq_false {c : Char} (h : isWordChar c = false) :
    ¬c.isDigit = true := by
  intro hdigit
  rw [isWordChar_of_isDigit hdigit] at h
  cases h

theorem isWordChar_of_isAlpha {c : Char} (h : c.isAlpha = true) : isWordChar c = true := by
  simp [isWordChar, Char.isAlphanum, h]

theorem isWhiteSpace_of_isWordChar {c : Char} (h : isWordChar c = true) :
    Text.isWhiteSpace c = false := by
  rcases Bool.or_eq_true_iff.mp h with h | h
  · exact Text.isWhiteSpace_of_isAlphanum h
  · rw [beq_iff_eq.mp h]
    rfl

/-- Characters that go on with no lexeme. -/
def Separates (cs : List Char) : Prop :=
  ∀ c ∈ cs.head?, isWordChar c = false ∧ c ≠ '.' ∧ c ≠ '-' ∧ c ≠ '+'

theorem takeLiteral_cons {c : Char} (hc : c.isDigit = true) (cs : List Char) :
    takeLiteral false (c :: cs) = (c :: (takeLiteral false cs).1, (takeLiteral false cs).2) := by
  have hmark : (c == 'e') = false := beq_eq_false_iff_ne.mpr (ne_of_isDigit hc rfl)
  rw [takeLiteral, hc, hmark]
  rfl

theorem takeLiteral_append_of_separates (marked : Bool) (cs : List Char) {rest : List Char}
    (h : Separates rest) :
    takeLiteral marked (cs ++ rest) =
      ((takeLiteral marked cs).1, (takeLiteral marked cs).2 ++ rest) := by
  induction cs generalizing marked with
  | nil =>
    rcases rest with - | ⟨c, rest⟩
    · rfl
    · rcases h c rfl with ⟨hword, hpoint, hminus, hplus⟩
      have hdigit := not_isDigit_of_isWordChar_eq_false hword
      have he : c ≠ 'e' := by
        rintro rfl
        cases hword
      rw [List.nil_append, takeLiteral]
      simp [hdigit, hpoint, he, hminus, hplus, takeLiteral]
  | cons c cs ih =>
    rw [List.cons_append, takeLiteral, takeLiteral]
    split
    · rw [ih]
    · rfl

/-- The lexemes of two pieces, where the second goes on with no lexeme of the first. -/
theorem lexemes_append (cs : List Char) {rest : List Char} (h : Separates rest) :
    lexemes (cs ++ rest) = lexemes cs ++ lexemes rest := by
  have hword : ∀ d ∈ rest.head?, isWordChar d = false := fun d hd => (h d hd).1
  fun_induction lexemes cs with
  | case1 => rfl
  | case2 c cs hblank ih => rw [List.cons_append, lexemes, if_pos hblank, ih]
  | case3 c cs hblank hdigit ih =>
    rw [List.cons_append, lexemes, if_neg hblank, if_pos hdigit,
      takeLiteral_append_of_separates _ _ h, ih, List.cons_append]
  | case4 c cs hblank hdigit hchar ih =>
    rw [List.cons_append, lexemes, if_neg hblank, if_neg hdigit, if_pos hchar,
      takeWhile_append_of_head hword, dropWhile_append_of_head hword, ih, List.cons_append]
  | case5 cs hblank hdigit hchar ih =>
    rw [List.cons_append, lexemes, if_neg hblank, if_neg hdigit, if_neg hchar, if_pos rfl,
      takeWhile_append_of_head hword, dropWhile_append_of_head hword, ih, List.cons_append]
  | case6 c cs hblank hdigit hchar hpoint ih =>
    rw [List.cons_append, lexemes, if_neg hblank, if_neg hdigit, if_neg hchar, if_neg hpoint, ih,
      List.cons_append]

/-- White space separates what stands around it, so nothing goes on with a piece that ends with
    it. -/
theorem lexemes_append_of_getLast? {cs : List Char} {c : Char} (hlast : cs.getLast? = some c)
    (hc : Text.isWhiteSpace c = true) (rest : List Char) :
    lexemes (cs ++ rest) = lexemes cs ++ lexemes rest := by
  rcases List.getLast?_eq_some_iff.mp hlast with ⟨init, rfl⟩
  -- The cut is made before the white space, which then has no lexemes on either side.
  have hseparates (ds : List Char) : Separates (c :: ds) := by
    rintro d ⟨⟩
    refine ⟨?_, ?_, ?_, ?_⟩
    · by_contra hword
      rw [isWhiteSpace_of_isWordChar (Bool.eq_true_of_not_eq_false hword)] at hc
      cases hc
    · rintro rfl
      cases hc
    · rintro rfl
      cases hc
    · rintro rfl
      cases hc
  have hblank (ds : List Char) : lexemes (c :: ds) = lexemes ds := by
    rw [lexemes, if_pos hc]
  rw [List.append_assoc, List.singleton_append, lexemes_append init (hseparates rest),
    lexemes_append init (hseparates []), hblank, hblank, lexemes, List.append_nil]

/-- The words of a text stand in it. -/
theorem infix_of_word_mem {w : String} {cs : List Char} (h : .word w ∈ lexemes cs) :
    w.toList <:+: cs := by
  fun_induction lexemes cs with
  | case1 => cases h
  | case2 c cs hblank ih => exact (ih h).trans (List.suffix_cons c cs).isInfix
  | case3 c cs hblank hdigit ih =>
    rw [List.mem_cons] at h
    have hrest := ih (h.resolve_left (by simp))
    have hsuffix := (takeLiteral_suffix false cs).trans (List.suffix_cons c cs)
    exact hrest.trans hsuffix.isInfix
  | case4 c cs hblank hdigit hchar ih =>
    rcases List.mem_cons.mp h with hw | hrest
    · cases hw
      rw [String.toList_ofList]
      have hprefix : c :: cs.takeWhile isWordChar <+: c :: cs :=
        List.cons_prefix_cons.mpr ⟨rfl, List.takeWhile_prefix _⟩
      exact hprefix.isInfix
    · have hsuffix := (List.dropWhile_suffix isWordChar).trans (List.suffix_cons c cs)
      exact (ih hrest).trans hsuffix.isInfix
  | case5 cs hblank hdigit hchar ih =>
    rw [List.mem_cons] at h
    have hrest := ih (h.resolve_left (by simp))
    have hsuffix := (List.dropWhile_suffix isWordChar).trans (List.suffix_cons '.' cs)
    exact hrest.trans hsuffix.isInfix
  | case6 c cs hblank hdigit hchar hpoint ih =>
    rw [List.mem_cons] at h
    have hrest := ih (h.resolve_left (by simp))
    exact hrest.trans (List.suffix_cons c cs).isInfix

/-- Nothing follows that goes on with a word. -/
def EndsWord (cs : List Char) : Prop :=
  ∀ c ∈ cs.head?, isWordChar c = false

theorem endsWord_nil : EndsWord [] :=
  fun _ hc => nomatch hc

theorem endsWord_cons {c : Char} (h : isWordChar c = false) (cs : List Char) :
    EndsWord (c :: cs) := by
  rintro d ⟨⟩
  exact h

theorem EndsWord.append {cs rest : List Char} (h : EndsWord cs) (hrest : EndsWord rest) :
    EndsWord (cs ++ rest) := by
  cases cs with
  | nil => exact hrest
  | cons c cs => exact endsWord_cons (h c rfl) _

/-- Whether a character is a lexeme on its own. -/
def IsSign (c : Char) : Prop :=
  Text.isWhiteSpace c = false ∧ isWordChar c = false ∧ c ≠ '.'

instance (c : Char) : Decidable (IsSign c) :=
  inferInstanceAs (Decidable (_ ∧ _ ∧ _))

/-- Characters with their lexemes, whatever follows that does not go on with a word. -/
def Lexes (cs : List Char) (ls : List Lexeme) : Prop :=
  ∀ rest, EndsWord rest → lexemes (cs ++ rest) = ls ++ lexemes rest

namespace Lexes

variable {c : Char} {w cs ds : List Char} {ls ms : List Lexeme}

theorem nil : Lexes [] [] :=
  fun _ _ => rfl

theorem lexemes_eq (h : Lexes cs ls) : lexemes cs = ls := by
  have hend := h [] endsWord_nil
  rwa [List.append_nil, lexemes, List.append_nil] at hend

theorem append (h : Lexes cs ls) (hends : EndsWord ds) (h' : Lexes ds ms) :
    Lexes (cs ++ ds) (ls ++ ms) := by
  intro rest hrest
  rw [List.append_assoc, h _ (hends.append hrest), h' rest hrest, List.append_assoc]

theorem blank (hc : Text.isWhiteSpace c = true) (h : Lexes cs ls) : Lexes (c :: cs) ls := by
  intro rest hrest
  rw [List.cons_append, lexemes, if_pos hc, h rest hrest]

theorem sign (hc : IsSign c) (h : Lexes cs ls) : Lexes (c :: cs) (.sign c :: ls) := by
  rcases hc with ⟨hblank, hword, hpoint⟩
  intro rest hrest
  rw [List.cons_append, lexemes, if_neg (by simp [hblank]),
    if_neg (not_isDigit_of_isWordChar_eq_false hword), if_neg (by simp [hword]), if_neg hpoint,
    h rest hrest, List.cons_append]

/-- A word that starts with a letter. -/
theorem word (hc : c.isAlpha = true) (hw : ∀ d ∈ w, isWordChar d = true) (hends : EndsWord cs)
    (h : Lexes cs ls) : Lexes (c :: (w ++ cs)) (.word (String.ofList (c :: w)) :: ls) := by
  intro rest hrest
  have hblank : ¬Text.isWhiteSpace c = true := by
    simp [isWhiteSpace_of_isWordChar (isWordChar_of_isAlpha hc)]
  have hdigit : ¬c.isDigit = true := by
    intro hdigit
    rw [Text.isAlpha_of_isDigit hdigit] at hc
    cases hc
  have hhead := hends.append hrest
  rw [List.cons_append, List.append_assoc, lexemes, if_neg hblank, if_neg hdigit,
    if_pos (isWordChar_of_isAlpha hc), takeWhile_append_of_head hhead,
    dropWhile_append_of_head hhead, List.takeWhile_eq_self_iff.mpr hw,
    List.dropWhile_eq_nil_iff.mpr hw, List.nil_append, h rest hrest, List.cons_append]

theorem selector (hw : ∀ d ∈ w, isWordChar d = true) (hends : EndsWord cs) (h : Lexes cs ls) :
    Lexes ('.' :: (w ++ cs)) (.selector (String.ofList w) :: ls) := by
  intro rest hrest
  have hhead := hends.append hrest
  rw [List.cons_append, List.append_assoc, lexemes, if_neg (by decide), if_neg (by decide),
    if_neg (by decide), if_pos rfl, takeWhile_append_of_head hhead,
    dropWhile_append_of_head hhead, List.takeWhile_eq_self_iff.mpr hw,
    List.dropWhile_eq_nil_iff.mpr hw, List.nil_append, h rest hrest, List.cons_append]

/-- A literal that is followed by a comma or a closing parenthesis. -/
theorem number {x : Float} (hw : IsLiteral w x) (hne : cs ≠ []) (hfollows : Follows afterSum cs)
    (h : Lexes cs ls) : Lexes (w ++ cs) (.number (String.ofList w) :: ls) := by
  intro rest hrest
  rcases hw.starts with ⟨c, tail, rfl, hc⟩
  have hnext : Follows afterSum (cs ++ rest) := by
    rcases cs with - | ⟨d, cs⟩
    · exact absurd rfl hne
    · exact follows_cons (hfollows d rfl) _
  -- The reader takes the literal off as a whole, and its first digit is where it starts.
  have htaken := hw.taken _ hnext
  rw [List.cons_append, takeLiteral_cons hc, Prod.mk.injEq, List.cons.injEq] at htaken
  rcases htaken with ⟨⟨-, hliteral⟩, hrest'⟩
  have hblank : ¬Text.isWhiteSpace c = true := by
    simp [isWhiteSpace_of_isWordChar (isWordChar_of_isDigit hc)]
  rw [List.append_assoc, List.cons_append, lexemes, if_neg hblank, if_pos hc, hliteral, hrest',
    h rest hrest, List.cons_append]

end Lexes

/-- Lexemes without the word that starts a declaration declare nothing. -/
theorem declared_append {ls : List Lexeme} (h : .word "uniform" ∉ ls) (ms : List Lexeme) :
    declared (ls ++ ms) = declared ms := by
  induction ls with
  | nil => rfl
  | cons l ls ih =>
    rw [List.mem_cons, not_or] at h
    -- A declaration that starts here would start with the excluded word.
    have hnone : declaration? (l :: (ls ++ ms)) = none := by
      unfold declaration?
      split
      · next a _ _ _ heq =>
        rw [List.cons.injEq] at heq
        exact if_neg fun ha => h.1 (by rw [heq.1, ha])
      · rfl
    rw [List.cons_append, declared, List.tails_cons, List.filterMap_cons_none hnone]
    exact ih h.2

/-- A declaration at the front, of a type and a name that are not the word that starts one. -/
theorem declared_cons (type name : String) (htype : type ≠ "uniform") (hname : name ≠ "uniform")
    (ls : List Lexeme) :
    declared (.word "uniform" :: .word type :: .word name :: ls) =
      (type, name) :: declared ls := by
  -- No second declaration starts inside the first one.
  have hrest : .word "uniform" ∉ [Lexeme.word type, Lexeme.word name] := by
    simp [htype.symm, hname.symm]
  have hfirst : declaration? (.word "uniform" :: .word type :: .word name :: ls) =
      some (type, name) := by
    rw [declaration?, if_pos rfl]
  rw [declared, List.tails_cons, List.filterMap_cons_some hfirst]
  exact congrArg _ (declared_append hrest ls)

end Shading

end ZPlane
