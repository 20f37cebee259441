import ZPlane.Proofs.Program
import ZPlane.Proofs.Shader.Lexemes
import ZPlane.Proofs.Shader.Rejection

/-!
# Fragment Shaders Declare What They Use

The expression in a fragment shader uses the point and the uniforms, and it uses every uniform
that is declared. Two walks over the tree have to agree for that. One collects the names, each
once, and the declarations come from it. The other writes the expression, with the operands of
a product four times each.

The names of an expression are kept apart from those of the template. A name that is not the
point is spelled with `u_` in front, which starts no word of the template.

Both are about the words of the shader, so the shader is cut into lexemes first. What stands
between the declarations and around the expression keeps them apart.

## Main definitions

* `Shader.Over`: Lexemes of an expression over some words.
* `Shader.Expresses`: Characters that are cut into such lexemes.

## Theorems

* `Shader.spelling_injective`: Different names are spelled differently.
* `Shader.expresses_emit`: What is written for an expression uses its names.
* `Shader.declared_lexemes`: What a shader declares.
* `Shader.lexemes_body`, `Shader.over_body`: The lexemes of the expression in a shader.
* `Shader.fragment_closed`: A fragment shader is closed, and captures no name.
-/

namespace ZPlane

namespace Shader

open Shading

section Spelling

variable {x y : String}

theorem spelling_of_ne (h : x ≠ coordinate) : spelling x = "u_" ++ x :=
  if_neg h

theorem toList_spelling_of_ne (h : x ≠ coordinate) :
    (spelling x).toList = 'u' :: '_' :: x.toList := by
  rw [spelling_of_ne h, String.toList_append]
  rfl

/-- Different names are spelled differently. -/
theorem spelling_injective : Function.Injective spelling := by
  intro x y h
  have hlists := congrArg String.toList h
  by_cases hx : x = coordinate <;> by_cases hy : y = coordinate
  · rw [hx, hy]
  · rw [toList_spelling_of_ne hy, hx] at hlists
    cases hlists
  · rw [toList_spelling_of_ne hx, hy] at hlists
    cases hlists
  · rw [toList_spelling_of_ne hx, toList_spelling_of_ne hy] at hlists
    exact String.toList_injective (by simpa using hlists)

/-- What a name is spelled as is told by its first two characters. -/
theorem spelling_ne {w : String} (hpoint : w ≠ coordinate) (h : ¬['u', '_'] <+: w.toList)
    (x : String) : spelling x ≠ w := by
  rintro rfl
  by_cases hx : x = coordinate
  · rw [hx] at hpoint
    exact hpoint rfl
  · rw [toList_spelling_of_ne hx] at h
    exact h (List.prefix_append ['u', '_'] x.toList)

theorem isWordChar_of_mem_spelling (h : ∀ c ∈ x.toList, c.isAlpha = true) :
    ∀ c ∈ (spelling x).toList, isWordChar c = true := by
  by_cases hx : x = coordinate
  · rw [hx]
    exact List.forall_mem_singleton.mpr rfl
  · rw [toList_spelling_of_ne hx, List.forall_mem_cons, List.forall_mem_cons]
    exact ⟨rfl, rfl, fun c hc => isWordChar_of_isAlpha (h c hc)⟩

/-- A name of letters is spelled as a word. -/
theorem lexes_spelling (h : ∀ c ∈ x.toList, c.isAlpha = true) :
    Lexes (spelling x).toList [.word (spelling x)] := by
  have hchars := isWordChar_of_mem_spelling h
  -- Words start with a letter: the point itself, or the mark of the uniforms.
  have hstart : ∃ c w, (spelling x).toList = c :: w ∧ c.isAlpha = true := by
    by_cases hx : x = coordinate
    · rw [hx]
      exact ⟨'z', [], rfl, rfl⟩
    · exact ⟨'u', _, toList_spelling_of_ne hx, rfl⟩
  rcases hstart with ⟨c, w, hx, hc⟩
  rw [hx, List.forall_mem_cons] at hchars
  have hlexes := Lexes.word hc hchars.2 endsWord_nil .nil
  rwa [List.append_nil, ← hx, String.ofList_toList] at hlexes

end Spelling

/-- The type of the uniforms and the constructor of the vectors are one word. -/
theorem lexes_vec2 {cs : List Char} {ls : List Lexeme} (hends : EndsWord cs) (h : Lexes cs ls) :
    Lexes ('v' :: 'e' :: 'c' :: '2' :: cs) (.word "vec2" :: ls) := by
  have hchars : ∀ d ∈ ['e', 'c', '2'], isWordChar d = true := by
    rw [← List.all_eq_true]
    rfl
  exact h.word (c := 'v') rfl hchars hends

/-- Lexemes of an expression: its words are `vec2` and the given ones, all of which occur, and
    its selectors are those of the parts of a number. -/
structure Over (xs : List String) (ls : List Lexeme) : Prop where
  word : ∀ w, .word w ∈ ls → w = "vec2" ∨ w ∈ xs
  occurs : ∀ x ∈ xs, .word x ∈ ls
  selector : ∀ s, .selector s ∈ ls → s = "x" ∨ s = "y"

namespace Over

variable {xs ys : List String} {l : Lexeme} {ls ms : List Lexeme}

/-- A lexeme in front that is neither a name nor a selector of another kind. -/
theorem cons (h : Over xs ls) (hword : ∀ w, l = .word w → w = "vec2")
    (hselector : ∀ s, l = .selector s → s = "x" ∨ s = "y") : Over xs (l :: ls) := by
  refine ⟨fun w hw => ?_, fun x hx => List.mem_cons_of_mem l (h.occurs x hx), fun s hs => ?_⟩
  · rcases List.mem_cons.mp hw with hl | hw
    · exact .inl (hword w hl.symm)
    · exact h.word w hw
  · rcases List.mem_cons.mp hs with hl | hs
    · exact hselector s hl.symm
    · exact h.selector s hs

theorem append (hl : Over xs ls) (hm : Over ys ms) : Over (xs ++ ys) (ls ++ ms) := by
  refine ⟨fun w hw => ?_, fun x hx => ?_, fun s hs => ?_⟩
  · rw [List.mem_append] at hw ⊢
    rcases hw with hw | hw
    · exact (hl.word w hw).imp_right .inl
    · exact (hm.word w hw).imp_right .inr
  · rw [List.mem_append] at hx ⊢
    exact hx.imp (hl.occurs x) (hm.occurs x)
  · rcases List.mem_append.mp hs with hs | hs
    · exact hl.selector s hs
    · exact hm.selector s hs

end Over

/-- Characters that are cut into lexemes of an expression over the given words. -/
def Expresses (xs : List String) (cs : List Char) : Prop :=
  ∃ ls, Lexes cs ls ∧ Over xs ls

namespace Expresses

variable {xs ys : List String} {c : Char} {w cs ds : List Char}

theorem nil : Expresses [] [] :=
  ⟨[], .nil, by simp, by simp, by simp⟩

theorem of_mem_iff (h : Expresses xs cs) (hmem : ∀ x, x ∈ xs ↔ x ∈ ys) : Expresses ys cs := by
  rcases h with ⟨ls, hls, hover⟩
  refine ⟨ls, hls, fun w hw => ?_, fun x hx => hover.occurs x ((hmem x).mpr hx), hover.selector⟩
  rw [← hmem]
  exact hover.word w hw

theorem append (h : Expresses xs cs) (hends : EndsWord ds) (h' : Expresses ys ds) :
    Expresses (xs ++ ys) (cs ++ ds) := by
  rcases h with ⟨ls, hls, hl⟩
  rcases h' with ⟨ms, hms, hm⟩
  exact ⟨_, hls.append hends hms, hl.append hm⟩

theorem blank (hc : Text.isWhiteSpace c = true) (h : Expresses xs cs) : Expresses xs (c :: cs) := by
  rcases h with ⟨ls, hls, hover⟩
  exact ⟨_, hls.blank hc, hover⟩

theorem sign (hc : IsSign c) (h : Expresses xs cs) : Expresses xs (c :: cs) := by
  rcases h with ⟨ls, hls, hover⟩
  exact ⟨_, hls.sign hc, hover.cons (by simp) (by simp)⟩

/-- Two texts with a sign between them. -/
theorem joined (h : Expresses xs cs) (hc : IsSign c) (h' : Expresses ys ds) :
    Expresses (xs ++ ys) (cs ++ c :: ds) :=
  h.append (endsWord_cons hc.2.1 ds) (h'.sign hc)

theorem closed (h : Expresses xs cs) (hc : IsSign c) : Expresses xs (cs ++ [c]) := by
  have hjoined := h.joined hc nil
  rwa [List.append_nil] at hjoined

theorem name {x : String} (h : Lexes x.toList [.word x]) : Expresses [x] x.toList :=
  ⟨_, h, by simp, by simp, by simp⟩

theorem number {x : Float} (hw : IsLiteral w x) (hne : cs ≠ []) (hfollows : Follows afterSum cs)
    (h : Expresses xs cs) : Expresses xs (w ++ cs) := by
  rcases h with ⟨ls, hls, hover⟩
  exact ⟨_, hls.number hw hne hfollows, hover.cons (by simp) (by simp)⟩

/-- A vector by its parts. -/
theorem vec2 (hends : EndsWord cs) (h : Expresses xs cs) :
    Expresses xs ('v' :: 'e' :: 'c' :: '2' :: cs) := by
  rcases h with ⟨ls, hls, hover⟩
  exact ⟨_, lexes_vec2 hends hls, hover.cons (by simp) (by simp)⟩

/-- A part of something in parentheses. -/
theorem part (h : Expresses xs cs) (hc : c = 'x' ∨ c = 'y') :
    Expresses xs ('(' :: (cs ++ [')', '.', c])) := by
  have hselector : Expresses [] ['.', c] := by
    have hchar : ∀ d ∈ [c], isWordChar d = true :=
      List.forall_mem_singleton.mpr (by rcases hc with rfl | rfl <;> rfl)
    have hlexes : Lexes ('.' :: ([c] ++ [])) [.selector (String.ofList [c])] :=
      .selector hchar endsWord_nil .nil
    refine ⟨_, hlexes, Over.cons ⟨by simp, by simp, by simp⟩ (by simp) ?_⟩
    rintro s ⟨⟩
    rcases hc with rfl | rfl
    · exact .inl rfl
    · exact .inr rfl
  have hpart := (h.joined (c := ')') (by decide) hselector).sign (c := '(') (by decide)
  rwa [List.append_nil] at hpart

/-- A product of two parts. -/
theorem times {d : Char} (h : Expresses xs cs) (hc : c = 'x' ∨ c = 'y') (h' : Expresses ys ds)
    (hd : d = 'x' ∨ d = 'y') :
    Expresses (xs ++ ys) ('(' :: (cs ++ [')', '.', c]) ++ '*' :: '(' :: (ds ++ [')', '.', d])) :=
  (h.part hc).joined (by decide) (h'.part hd)

end Expresses

theorem expresses_literal {z : Complex} (hre : Unsigned z.re) (him : Unsigned z.im) :
    Expresses [] (literal z).toList := by
  have htext : (literal z).toList = 'v' :: 'e' :: 'c' :: '2' :: '(' ::
      ((Layout.literal.write z.re).toList ++
        ',' :: ' ' :: ((Layout.literal.write z.im).toList ++ [')'])) := by
    simp [literal]
  rw [htext]
  -- A literal is only known to end before a comma or a parenthesis, so the end comes first.
  have hclose : Expresses [] [')'] := .sign (by decide) .nil
  have him : Expresses [] ((Layout.literal.write z.im).toList ++ [')']) :=
    hclose.number (isLiteral_write him) (by simp) (follows_cons (by simp [afterSum]) _)
  have hcomma := (him.blank (c := ' ') rfl).sign (c := ',') (by decide)
  have hre := hcomma.number (isLiteral_write hre) (by simp) (follows_cons (by simp [afterSum]) _)
  exact (hre.sign (by decide)).vec2 (endsWord_cons rfl _)

section Operations

variable {xs ys : List String} {a b : String}

theorem expresses_sum {symbol : String} {c : Char} (hsymbol : symbol.toList = [c]) (hc : IsSign c)
    (ha : Expresses xs a.toList) (hb : Expresses ys b.toList) :
    Expresses (xs ++ ys) (sum symbol a b).toList := by
  have htext : (sum symbol a b).toList = '(' :: ((a.toList ++ c :: b.toList) ++ [')']) := by
    simp [sum, hsymbol]
  rw [htext]
  exact ((ha.joined hc hb).closed (by decide)).sign (by decide)

theorem expresses_product (ha : Expresses xs a.toList) (hb : Expresses ys b.toList) :
    Expresses (xs ++ ys) (product a b).toList := by
  have hre := (ha.times (.inl rfl) hb (.inl rfl)).joined (c := '-') (by decide)
    (ha.times (.inr rfl) hb (.inr rfl))
  have him := (ha.times (.inl rfl) hb (.inr rfl)).joined (c := '+') (by decide)
    (hb.times (.inl rfl) ha (.inr rfl))
  have hparts := hre.joined (c := ',') (by decide) (him.blank (c := ' ') rfl)
  have hvector := ((hparts.closed (c := ')') (by decide)).sign (c := '(') (by decide)).vec2
    (endsWord_cons rfl _)
  -- Each operand was used four times, but its names count once.
  have hproduct : Expresses (xs ++ ys) _ := hvector.of_mem_iff fun x => by
    simp only [List.mem_append]
    tauto
  unfold product
  simpa [String.toList_append] using hproduct

end Operations

/-- What is written for an expression is an expression over its names. -/
theorem expresses_emit {e : Expr} {text : String} (hwritten : e.Written)
    (h : emit spelling e = .ok text) : Expresses (e.leaves.map spelling) text.toList := by
  induction e generalizing text with
  | literal z =>
    cases h
    exact expresses_literal hwritten.1 hwritten.2
  | name x =>
    cases h
    exact .name (lexes_spelling hwritten.2)
  | operation op l r ihl ihr =>
    rcases ok_and_ok_of_bind h with ⟨a, ha, h₁⟩
    rcases ok_and_ok_of_bind h₁ with ⟨b, hb, h₂⟩
    have hl := ihl hwritten.1 ha
    have hr := ihr hwritten.2 hb
    rw [Expr.leaves, List.map_append]
    rcases operation_eq_ok h₂ with htext | htext | htext
    · rw [htext]
      exact expresses_sum rfl (c := '+') (by decide) hl hr
    · rw [htext]
      exact expresses_sum rfl (c := '-') (by decide) hl hr
    · rw [htext]
      exact expresses_product hl hr

section Declarations

/-- The lexemes of a declaration. -/
def declarationLexemes (x : String) : List Lexeme :=
  [.word "uniform", .word "vec2", .word (spelling x), .sign ';']

theorem lexes_declaration {x : String} (h : ∀ c ∈ x.toList, c.isAlpha = true) :
    Lexes (declaration x).toList (declarationLexemes x) := by
  have hchars : ∀ d ∈ ['n', 'i', 'f', 'o', 'r', 'm'], isWordChar d = true := by
    rw [← List.all_eq_true]
    rfl
  -- The line is built from its end, as each word needs to know what ends it.
  have hend : Lexes [';', '\n'] [.sign ';'] := .sign (by decide) (.blank rfl .nil)
  have hname := ((lexes_spelling h).append (endsWord_cons rfl _) hend).blank (c := ' ') rfl
  have htype := (lexes_vec2 (endsWord_cons rfl _) hname).blank (c := ' ') rfl
  have hdeclaration := htype.word (c := 'u') rfl hchars (endsWord_cons rfl _)
  unfold declaration declarationLexemes
  simpa [String.toList_append] using hdeclaration

theorem getLast?_declaration (x : String) : (declaration x).toList.getLast? = some '\n' := by
  rw [declaration, String.toList_append, List.getLast?_append]
  rfl

variable {xs : List String}

/-- Each declaration ends its line, so it keeps its lexemes. -/
theorem lexemes_declarations (h : ∀ x ∈ xs, ∀ c ∈ x.toList, c.isAlpha = true)
    (rest : List Char) :
    lexemes (xs.flatMap (fun x => (declaration x).toList) ++ rest) =
      xs.flatMap declarationLexemes ++ lexemes rest := by
  induction xs with
  | nil => rfl
  | cons x xs ih =>
    rw [List.forall_mem_cons] at h
    rw [List.flatMap_cons, List.flatMap_cons, List.append_assoc,
      lexemes_append_of_getLast? (getLast?_declaration x) rfl, (lexes_declaration h.1).lexemes_eq,
      ih h.2, List.append_assoc]

theorem declared_declarations (ls : List Lexeme) :
    declared (xs.flatMap declarationLexemes ++ ls) =
      xs.map (fun x => ("vec2", spelling x)) ++ declared ls := by
  induction xs with
  | nil => rfl
  | cons x xs ih =>
    have hends : .word "uniform" ∉ [Lexeme.sign ';'] := by simp
    have hrest := declared_append hends (xs.flatMap declarationLexemes ++ ls)
    rw [ih] at hrest
    rw [List.flatMap_cons, List.append_assoc, declarationLexemes]
    have hname : spelling x ≠ "uniform" := spelling_ne (by decide) (by decide) x
    exact (declared_cons "vec2" _ (by decide) hname _).trans (congrArg _ hrest)

end Declarations

section Template

/-- No word that starts a declaration stands in the template. -/
theorem uniform_not_mem_template :
    .word "uniform" ∉ lexemes preamble.toList ∧ .word "uniform" ∉ lexemes middle.toList ∧
      .word "uniform" ∉ lexemes closing.toList := by
  -- The word does not even stand in the text, which takes no cutting into lexemes to see.
  have hnone {cs : List Char} (h : ¬['u', 'n', 'i', 'f', 'o', 'r', 'm'] <:+: cs) :
      .word "uniform" ∉ lexemes cs := fun hmem => h (infix_of_word_mem hmem)
  refine ⟨hnone ?_, hnone ?_, hnone ?_⟩
  · unfold preamble
    rw [String.toList_ofList]
    decide +kernel
  · unfold middle
    simp only [String.toList_append]
    repeat rw [String.toList_ofList]
    decide +kernel
  · unfold closing
    simp only [String.toList_append]
    repeat rw [String.toList_ofList]
    decide +kernel

/-- No word of the template starts as the uniforms do. -/
theorem spelling_not_mem_template {x : String} (hx : x ≠ coordinate) :
    .word (spelling x) ∉ lexemes template.toList := by
  intro hmem
  have hstart : ['u', '_'] <:+: (spelling x).toList := by
    rw [toList_spelling_of_ne hx]
    exact (List.prefix_append ['u', '_'] x.toList).isInfix
  have htemplate := hstart.trans (infix_of_word_mem hmem)
  revert htemplate
  unfold template preamble uniformsHole middle expressionHole closing
  simp only [String.toList_append]
  repeat rw [String.toList_ofList]
  decide +kernel

theorem getLast?_preamble : preamble.toList.getLast? = some '\n' := by
  unfold preamble
  rw [String.toList_ofList]
  rfl

theorem getLast?_middle : middle.toList.getLast? = some ' ' := by
  unfold middle
  rw [String.toList_append, List.getLast?_append]
  rfl

theorem endsWord_closing : EndsWord closing.toList := by
  unfold closing
  rw [String.toList_append, String.toList_ofList]
  exact endsWord_cons rfl _

end Template

section Fragment

variable {e : Expr} {body : String}

theorem toList_uniforms (e : Expr) :
    (uniforms e).toList =
      (e.names.filter (· ≠ coordinate)).flatMap fun x => (declaration x).toList := by
  rw [uniforms, String.toList_join, List.flatMap_map]

/-- Declarations of names of letters have no braces. -/
theorem brace_not_mem_uniforms (h : e.Written) : '\x7b' ∉ (uniforms e).toList := by
  rw [toList_uniforms, List.mem_flatMap]
  rintro ⟨x, hx, hmem⟩
  have hletters := (h.name x (Expr.mem_names_iff.mp (List.mem_filter.mp hx).1)).2
  simp only [declaration, String.toList_append, List.mem_append] at hmem
  rcases hmem with (hmem | hmem) | hmem
  · revert hmem
    decide +kernel
  · cases isWordChar_of_mem_spelling hletters _ hmem
  · revert hmem
    decide +kernel

/-- What a shader declares: the uniforms of its expression, and nothing else. -/
theorem declared_lexemes (hwritten : e.Written) (hbody : emit spelling e = .ok body) :
    declared (lexemes (preamble ++ uniforms e ++ middle ++ body ++ closing).toList) =
      (e.names.filter (· ≠ coordinate)).map fun x => ("vec2", spelling x) := by
  rcases expresses_emit hwritten hbody with ⟨ls, hls, hover⟩
  rcases uniform_not_mem_template with ⟨hpreamble, hmiddle, hclosing⟩
  have hnames : ∀ x ∈ e.names.filter (· ≠ coordinate), ∀ c ∈ x.toList, c.isAlpha = true :=
    fun x hx => (hwritten.name x (Expr.mem_names_iff.mp (List.mem_filter.mp hx).1)).2
  have hls' : .word "uniform" ∉ ls := by
    intro hmem
    rcases hover.word _ hmem with hword | hword
    · exact absurd hword (by decide)
    · rcases List.mem_map.mp hword with ⟨x, -, hx⟩
      exact spelling_ne (by decide) (by decide) x hx
  simp only [String.toList_append, List.append_assoc]
  -- From the front, each piece is cut off with its lexemes, and only the declarations declare.
  rw [lexemes_append_of_getLast? getLast?_preamble rfl, declared_append hpreamble, toList_uniforms,
    lexemes_declarations hnames, declared_declarations,
    lexemes_append_of_getLast? getLast?_middle rfl, declared_append hmiddle,
    hls _ endsWord_closing, declared_append hls']
  have hnone := declared_append hclosing []
  rw [List.append_nil] at hnone
  rw [hnone]
  exact List.append_nil _

theorem mem_declared_iff (hwritten : e.Written) (hbody : emit spelling e = .ok body)
    {d : String × String} :
    d ∈ declared (lexemes (preamble ++ uniforms e ++ middle ++ body ++ closing).toList) ↔
      ∃ x ∈ e.leaves, x ≠ coordinate ∧ ("vec2", spelling x) = d := by
  rw [declared_lexemes hwritten hbody]
  simp [Expr.mem_names_iff, and_assoc]

/-- The expression keeps its lexemes between the space before it and the sign behind it. -/
theorem lexemes_body (hwritten : e.Written) (hbody : emit spelling e = .ok body) :
    lexemes (preamble ++ uniforms e ++ middle ++ body ++ closing).toList =
      lexemes (preamble ++ uniforms e ++ middle).toList ++
        (lexemes body.toList ++ lexemes closing.toList) := by
  rcases expresses_emit hwritten hbody with ⟨ls, hls, -⟩
  have hlast : (preamble ++ uniforms e ++ middle).toList.getLast? = some ' ' := by
    rw [String.toList_append, List.getLast?_append, getLast?_middle]
    rfl
  rw [String.toList_append, String.toList_append, List.append_assoc,
    lexemes_append_of_getLast? hlast rfl, hls _ endsWord_closing, hls.lexemes_eq]

/-- The lexemes of the expression are over the spellings of its names. -/
theorem over_body (hwritten : e.Written) (hbody : emit spelling e = .ok body) :
    Over (e.leaves.map spelling) (lexemes body.toList) := by
  rcases expresses_emit hwritten hbody with ⟨ls, hls, hover⟩
  rwa [hls.lexemes_eq]

end Fragment

/-- A fragment shader is closed and captures no name. It is the template with the declarations
    and the expression put in, and the expression keeps its lexemes there. The uniforms are the
    names of the expression other than the point, each once and in the order of first use. The
    expression uses the point and the uniforms, and every uniform. Different names are spelled
    differently, and no uniform is a word of the template. -/
theorem fragment_closed {source shader : String} {e : Expr} (hparse : parse source = .ok e)
    (h : fragment e = .ok shader) :
    ∃ body, emit spelling e = .ok body ∧
      shader = preamble ++ uniforms e ++ middle ++ body ++ closing ∧
      lexemes shader.toList = lexemes (preamble ++ uniforms e ++ middle).toList ++
        (lexemes body.toList ++ lexemes closing.toList) ∧
      -- What is declared.
      e.names = e.leaves.eraseDups ∧
      declared (lexemes shader.toList) =
        (e.names.filter (· ≠ "z")).map (fun x => ("vec2", "u_" ++ x)) ∧
      (declared (lexemes shader.toList)).Nodup ∧
      -- What is used.
      (∀ w, .word w ∈ lexemes body.toList →
        w = "vec2" ∨ w = "z" ∨ ("vec2", w) ∈ declared (lexemes shader.toList)) ∧
      (∀ s, .selector s ∈ lexemes body.toList → s = "x" ∨ s = "y") ∧
      (∀ x ∈ e.names, .word (spelling x) ∈ lexemes body.toList) ∧
      (∀ d ∈ declared (lexemes shader.toList), .word d.2 ∈ lexemes body.toList) ∧
      -- What is kept apart.
      Function.Injective spelling ∧
      ∀ d ∈ declared (lexemes shader.toList),
        d.2 ≠ "vec2" ∧ .word d.2 ∉ lexemes template.toList := by
  have hwritten := Expr.written_of_parse hparse
  rcases ok_and_ok_of_bind h with ⟨body, hbody, -⟩
  have hnowhere := startsNowhere_of_brace_not_mem (brace_not_mem_uniforms hwritten)
  have hshader : shader = preamble ++ uniforms e ++ middle ++ body ++ closing := by
    rw [fragment_eq hbody (hnowhere _).2] at h
    exact (Except.ok.inj h).symm
  subst hshader
  have hover := over_body hwritten hbody
  have hmem {d : String × String} := mem_declared_iff hwritten hbody (d := d)
  refine ⟨body, hbody, rfl, lexemes_body hwritten hbody, e.names_eq_eraseDups, ?_, ?_, ?_,
    hover.selector, ?_, ?_, spelling_injective, ?_⟩
  · rw [declared_lexemes hwritten hbody]
    refine List.map_congr_left fun x hx => ?_
    rw [spelling_of_ne (by simpa using (List.mem_filter.mp hx).2)]
  · rw [declared_lexemes hwritten hbody]
    exact (e.nodup_names.filter _).map fun x y hxy => spelling_injective (Prod.mk.inj hxy).2
  · intro w hw
    refine (hover.word w hw).imp_right fun hname => ?_
    rcases List.mem_map.mp hname with ⟨x, hx, rfl⟩
    by_cases hpoint : x = coordinate
    · rw [hpoint]
      exact .inl rfl
    · exact .inr (hmem.mpr ⟨x, hx, hpoint, rfl⟩)
  · intro x hx
    exact hover.occurs _ (List.mem_map_of_mem (Expr.mem_names_iff.mp hx))
  · intro d hd
    rcases hmem.mp hd with ⟨x, hx, -, rfl⟩
    exact hover.occurs _ (List.mem_map_of_mem hx)
  · intro d hd
    rcases hmem.mp hd with ⟨x, -, hpoint, rfl⟩
    exact ⟨spelling_ne (by decide) (by decide) x, spelling_not_mem_template hpoint⟩

/-- A product of a uniform and the point, and one more uniform. -/
theorem fragment_closed_product : ∃ e shader, parse "a z + b" = .ok e ∧
    fragment e = .ok shader ∧
    declared (lexemes shader.toList) = [("vec2", "u_a"), ("vec2", "u_b")] := by
  let e : Expr := .operation (.arith .add) (.operation (.arith .mul) (.name "a") (.name "z"))
    (.name "b")
  have hparse : parse "a z + b" = .ok e := by cbv
  have hfragment : fragment e = .ok _ := rfl
  rcases fragment_closed hparse hfragment with ⟨_, -, -, -, -, hdeclared, -⟩
  refine ⟨e, _, hparse, hfragment, hdeclared.trans ?_⟩
  rfl

end Shader

end ZPlane
