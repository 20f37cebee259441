import ZPlane.Proofs.Decimal.Positional
import ZPlane.Proofs.Parser.Image
import ZPlane.Proofs.Session.Run
import ZPlane.Proofs.Text.Letters
import ZPlane.Proofs.Token.Failure

/-!
# The Bracketed Form Tells Trees Apart

A session shows a tree in bracketed form, operator first. Two trees that were read from texts
are shown alike only if they are the same tree.

The form is a sequence of words: the symbols, the numerals and the names. No word has a blank
or a closing parenthesis in it, and one of these follows every word, so the words can be cut
off one after another. A word alone tells what it is. A numeral starts with a digit and a name
with a letter, and a symbol is looked for only behind an opening parenthesis, where neither of
the others can stand. That is why a name `call` does no harm.

What is needed of the leaves holds for trees that were read, and not for all: the literal `i`,
which no text has, is shown like the name `i`.

## Main definitions

* `Expr.IsWord`, `Expr.Delimits`: Words, and the characters that can follow them.
* `Expr.Legible`: Literals and names that are told apart by their texts.

## Theorems

* `Expr.word_append_inj`: A word is cut off in one way.
* `Complex.exists_numeral_text`: The text of a literal is a numeral that reads back.
* `Expr.text_append_inj`: A tree is cut off in one way.
* `parse_text_inj`: Trees that were read are told apart by their texts.
-/

namespace ZPlane

/-- A real number without a minus sign is written as a numeral that reads back. -/
theorem Complex.exists_numeral_text {z : Complex} (hre : Unsigned z.re) (him : z.im = 0) :
    ∃ n : Numeral, n.Digital ∧ z.text.toList = n.chars ∧ n.value = z.re := by
  rcases z with ⟨a, b⟩
  subst him
  by_cases hzero : (a == 0) = true
  · -- Zero is written without a search for its digits.
    have ha : a = 0 := by
      rcases (Float.beq_iff_ne_nan_and_eq.mp hzero).2.2 with ha | ⟨ha, -⟩ | ⟨ha, -⟩
      · exact ha
      · exact ha
      · exact absurd ha hre.ne_neg_zero
    subst ha
    exact ⟨⟨['0'], none⟩, ⟨by simp, by simp, by simp⟩, by decide, by decide⟩
  · have hnonzero := nonzero_of_isFinite hre.isFinite (Bool.eq_false_of_not_eq_true hzero)
    rcases Layout.exists_numeral_write hre hnonzero with ⟨n, hdigital, hchars, hvalue⟩
    have htext : Complex.text ⟨a, 0⟩ = Layout.result.write a := by
      have him : ((0 : Float) == 0) = true := by decide
      simp [text, isZero, realText, imaginaryText, hzero, him]
    exact ⟨n, hdigital, htext ▸ hchars, hvalue⟩

namespace Operator

/-- All operators. -/
def all : List Operator :=
  [.arith .add, .arith .sub, .arith .mul, .arith .div, .arith .pow, .assign, .call]

theorem mem_all (op : Operator) : op ∈ all := by
  cases op with
  | arith a => cases a <;> decide
  | assign => decide
  | call => decide

/-- No two operators have the same symbol. -/
theorem symbol_injective {op op' : Operator} (h : op.symbol = op'.symbol) : op = op' := by
  have hnodup : (all.map symbol).Nodup := by decide
  exact List.inj_on_of_nodup_map hnodup op.mem_all op'.mem_all h

end Operator

namespace Expr

/-- The characters that follow words. -/
def isDelimiter (c : Char) : Bool :=
  c == ' ' || c == ')'

/-- Nothing, or characters that start with a delimiter. -/
def Delimits (rest : List Char) : Prop :=
  ∀ c ∈ rest.head?, isDelimiter c = true

/-- Characters without a delimiter. -/
def IsWord (cs : List Char) : Prop :=
  ∀ c ∈ cs, isDelimiter c = false

/-- A word is cut off in one way. -/
theorem word_append_inj {cs ds rest rest' : List Char} (hcs : IsWord cs) (hds : IsWord ds)
    (hrest : Delimits rest) (hrest' : Delimits rest') (h : cs ++ rest = ds ++ rest') :
    cs = ds ∧ rest = rest' := by
  -- What is cut off is the longest beginning without a delimiter.
  have hcut {as tail : List Char} (has : IsWord as) (htail : Delimits tail) :
      (as ++ tail).takeWhile (fun c => !isDelimiter c) = as := by
    rw [takeWhile_append_of_head (fun c hc => by simp [htail c hc]),
      List.takeWhile_eq_self_iff.mpr (fun c hc => by simp [has c hc])]
  have hword : cs = ds := by
    rw [← hcut hcs hrest, h, hcut hds hrest']
  refine ⟨hword, ?_⟩
  rw [hword] at h
  exact List.append_cancel_left h

theorem delimits_cons {c : Char} (hc : isDelimiter c = true) (rest : List Char) :
    Delimits (c :: rest) := by
  rintro d ⟨⟩
  exact hc

/-- Letters, digits and points make words. -/
theorem isWord_of_isAlphanum {cs : List Char} (h : ∀ c ∈ cs, c.isAlphanum = true ∨ c = '.') :
    IsWord cs := by
  intro c hc
  by_contra hend
  simp only [isDelimiter, Bool.not_eq_false, Bool.or_eq_true, beq_iff_eq] at hend
  rcases hend with rfl | rfl <;> exact absurd (h _ hc) (by decide)

theorem isWord_symbol (op : Operator) : IsWord op.symbol.toList := by
  have hall : ∀ op ∈ Operator.all, IsWord op.symbol.toList := by
    simp [Operator.all, Operator.symbol, Arith.symbol, IsWord, isDelimiter]
  exact hall op op.mem_all

/-- Literals are real numbers without a minus sign, and names are made of letters. -/
def Legible : Expr → Prop
  | .literal z => Unsigned z.re ∧ z.im = 0
  | .name x => x.toList ≠ [] ∧ ∀ c ∈ x.toList, c.isAlpha = true
  | .operation _ l r => l.Legible ∧ r.Legible

theorem legible_of_written {e : Expr} (h : e.Written) (him : ∀ z ∈ e.literals, z.im = 0) :
    e.Legible := by
  induction e with
  | literal z => exact ⟨h.1, him z List.mem_cons_self⟩
  | name x => exact h
  | operation op l r ihl ihr =>
    rw [literals, List.forall_mem_append] at him
    exact ⟨ihl h.1 him.1, ihr h.2 him.2⟩

theorem legible_of_parse {text : String} {e : Expr} (h : parse text = .ok e) : e.Legible :=
  legible_of_written (written_of_parse h) fun z hz => ((readable_of_parse h).literal z hz).2.2

/-- Whether a tree has no operation. -/
def IsLeaf : Expr → Prop
  | .literal _ => True
  | .name _ => True
  | .operation _ _ _ => False

/-- A leaf is written as a word that starts with a letter or a digit. -/
theorem Legible.isWord_text {e : Expr} (h : e.Legible) (hleaf : e.IsLeaf) :
    IsWord e.text.toList ∧ ∃ c cs, e.text.toList = c :: cs ∧ c.isAlphanum = true := by
  cases e with
  | literal z =>
    rcases Complex.exists_numeral_text h.1 h.2 with ⟨n, hdigital, hchars, -⟩
    change IsWord z.text.toList ∧ ∃ c cs, z.text.toList = c :: cs ∧ c.isAlphanum = true
    rw [hchars]
    refine ⟨isWord_of_isAlphanum fun c hc => ?_, ?_⟩
    · exact (hdigital.chars_plain c hc).imp_left fun hdigit => by simp [Char.isAlphanum, hdigit]
    · rcases hdigital.exists_cons with ⟨c, cs, hcons, hdigit⟩
      exact ⟨c, cs, hcons, by simp [Char.isAlphanum, hdigit]⟩
  | name x =>
    have hletters : ∀ c ∈ x.toList, c.isAlphanum = true := fun c hc => by
      simp [Char.isAlphanum, h.2 c hc]
    refine ⟨isWord_of_isAlphanum fun c hc => .inl (hletters c hc), ?_⟩
    rcases List.exists_cons_of_ne_nil h.1 with ⟨c, cs, hcons⟩
    exact ⟨c, cs, hcons, hletters c (hcons ▸ List.mem_cons_self)⟩
  | operation op l r => exact absurd hleaf id

/-- A numeral is no name, since their first characters differ. -/
theorem Legible.text_ne_name {z : Complex} {x : String} (hz : (literal z).Legible)
    (hx : (name x).Legible) : z.text.toList ≠ x.toList := by
  intro h
  rcases Complex.exists_numeral_text hz.1 hz.2 with ⟨n, hdigital, hchars, -⟩
  rcases hdigital.exists_cons with ⟨c, cs, hcons, hdigit⟩
  have hletter := hx.2 c (by rw [← h, hchars, hcons]; exact List.mem_cons_self)
  rw [Text.isAlpha_of_isDigit hdigit] at hletter
  exact Bool.false_ne_true hletter

theorem Legible.literal_inj {z w : Complex} (hz : (literal z).Legible) (hw : (literal w).Legible)
    (h : z.text.toList = w.text.toList) : z = w := by
  rcases Complex.exists_numeral_text hz.1 hz.2 with ⟨n, hn, hchars, hvalue⟩
  rcases Complex.exists_numeral_text hw.1 hw.2 with ⟨m, hm, hchars', hvalue'⟩
  have hsame : n = m := by
    refine hn.eq_of_stops hm n.stops_nil m.stops_nil ?_
    rw [List.append_nil, List.append_nil, ← hchars, ← hchars', h]
  have hre : z.re = w.re := by
    rw [← hvalue, ← hvalue', hsame]
  rcases z with ⟨a, b⟩
  rcases w with ⟨c, d⟩
  have him : b = d := hz.2.trans hw.2.symm
  rw [show a = c from hre, him]

/-- Leaves are told apart by their texts. -/
theorem Legible.leaf_inj {e f : Expr} (he : e.Legible) (hf : f.Legible) (hleaf : e.IsLeaf)
    (hleaf' : f.IsLeaf) (h : e.text.toList = f.text.toList) : e = f := by
  cases e with
  | literal z =>
    cases f with
    | literal w => rw [he.literal_inj hf h]
    | name y => exact absurd h (he.text_ne_name hf)
    | operation op l r => exact absurd hleaf' id
  | name x =>
    cases f with
    | literal w => exact absurd h.symm (hf.text_ne_name he)
    | name y => exact congrArg name (String.toList_inj.mp h)
    | operation op l r => exact absurd hleaf' id
  | operation op l r => exact absurd hleaf id

/-- The text of an operation, up to whatever follows it. -/
theorem text_operation_append (op : Operator) (l r : Expr) (rest : List Char) :
    (operation op l r).text.toList ++ rest =
      '(' :: (op.symbol.toList ++
        ' ' :: (l.text.toList ++ ' ' :: (r.text.toList ++ ')' :: rest))) := by
  simp [text]

/-- A leaf does not start like an operation. -/
theorem Legible.text_append_ne {e : Expr} (h : e.Legible) (hleaf : e.IsLeaf) (op : Operator)
    (l r : Expr) (rest rest' : List Char) :
    e.text.toList ++ rest ≠ (operation op l r).text.toList ++ rest' := by
  rcases (h.isWord_text hleaf).2 with ⟨c, cs, hcons, hc⟩
  rw [hcons, text_operation_append]
  intro h
  rw [(List.cons.inj h).1] at hc
  exact absurd hc (by decide)

theorem Legible.leaf_append_inj {e f : Expr} (he : e.Legible) (hf : f.Legible)
    (hleaf : e.IsLeaf) (hleaf' : f.IsLeaf) {rest rest' : List Char} (hrest : Delimits rest)
    (hrest' : Delimits rest') (h : e.text.toList ++ rest = f.text.toList ++ rest') :
    e = f ∧ rest = rest' := by
  rcases word_append_inj (he.isWord_text hleaf).1 (hf.isWord_text hleaf').1 hrest hrest' h with
    ⟨htext, hrests⟩
  exact ⟨he.leaf_inj hf hleaf hleaf' htext, hrests⟩

/-- A tree is cut off in one way: where the texts of two trees start the same characters, and
    a delimiter or nothing follows, the trees are the same. -/
theorem text_append_inj {e f : Expr} (he : e.Legible) (hf : f.Legible) {rest rest' : List Char}
    (hrest : Delimits rest) (hrest' : Delimits rest')
    (h : e.text.toList ++ rest = f.text.toList ++ rest') : e = f ∧ rest = rest' := by
  induction e generalizing f rest rest' with
  | literal z =>
    cases f with
    | operation op l r => exact absurd h (he.text_append_ne trivial op l r rest rest')
    | _ => exact he.leaf_append_inj hf trivial trivial hrest hrest' h
  | name x =>
    cases f with
    | operation op l r => exact absurd h (he.text_append_ne trivial op l r rest rest')
    | _ => exact he.leaf_append_inj hf trivial trivial hrest hrest' h
  | operation op l r ihl ihr =>
    cases f with
    | literal w => exact absurd h.symm (hf.text_append_ne trivial op l r rest' rest)
    | name y => exact absurd h.symm (hf.text_append_ne trivial op l r rest' rest)
    | operation op' l' r' =>
      rw [text_operation_append, text_operation_append, List.cons_inj_right] at h
      -- The symbol is cut off as a word, and then each operand with the rest behind it.
      rcases word_append_inj (isWord_symbol op) (isWord_symbol op') (delimits_cons rfl _)
        (delimits_cons rfl _) h with ⟨hsymbol, htail⟩
      have hop : op = op' := Operator.symbol_injective (String.toList_inj.mp hsymbol)
      rcases ihl he.1 hf.1 (delimits_cons rfl _) (delimits_cons rfl _)
        (List.cons.inj htail).2 with ⟨hl, htail⟩
      rcases ihr he.2 hf.2 (delimits_cons rfl _) (delimits_cons rfl _)
        (List.cons.inj htail).2 with ⟨hr, htail⟩
      rw [hop, hl, hr]
      exact ⟨rfl, (List.cons.inj htail).2⟩

/-- Legible trees with the same text are the same. -/
theorem Legible.text_inj {e f : Expr} (he : e.Legible) (hf : f.Legible) (h : e.text = f.text) :
    e = f := by
  have hends : Delimits [] := fun c hc => absurd hc (by simp)
  refine (text_append_inj he hf hends hends ?_).1
  rw [h]

/-- A literal that no text has is shown like a name. -/
example : (literal .i).text = (name "i").text ∧ literal .i ≠ name "i" := by
  decide

/-- A tree that was read from a text is equal to itself as a tree of numbers: it has no NaN. -/
theorem beq_self_of_parse {text : String} {e : Expr} (h : parse text = .ok e) :
    (e == e) = true := by
  have hbeq := beq_unsigned (readable_of_parse h).literal
  rwa [unsigned_eq_self (written_of_parse h).literal] at hbeq

end Expr

/-- Trees that were read from texts are told apart by their bracketed forms. What a session
    answers to a marked line therefore says which tree the line has, whatever the sessions, their
    markers and what was evaluated in them before. -/
theorem parse_text_inj :
    (∀ s t e f, parse s = .ok e → parse t = .ok f → e.text = f.text →
      e = f ∧ (e == f) = true) ∧
    ∀ (s t : Session) (line line' source source' answer : String),
      s.marked? line = some source → t.marked? line' = some source' →
      (s.runLine line).1 = .ok answer → (t.runLine line').1 = .ok answer →
      ∃ e, parse source = .ok e ∧ parse source' = .ok e := by
  have hinj {s t : String} {e f : Expr} (he : parse s = .ok e) (hf : parse t = .ok f)
      (h : e.text = f.text) : e = f :=
    (Expr.legible_of_parse he).text_inj (Expr.legible_of_parse hf) h
  refine ⟨fun s t e f he hf h => ?_, ?_⟩
  · rw [← hinj he hf h]
    exact ⟨rfl, Expr.beq_self_of_parse he⟩
  · intro s t line line' source source' answer hmark hmark' hanswer hanswer'
    rw [Session.runLine_of_marked hmark] at hanswer
    rw [Session.runLine_of_marked hmark'] at hanswer'
    rcases ok_of_map_eq_ok hanswer with ⟨e, he, htext⟩
    rcases ok_of_map_eq_ok hanswer' with ⟨f, hf, htext'⟩
    refine ⟨e, he, ?_⟩
    rw [hinj he hf (htext.trans htext'.symm), hf]

/-- Two lines that call a function of the name `call` are answered alike by sessions with
    different markers, so they have the same tree. -/
theorem parse_text_inj_call : ∃ e f, parse "call(a) b" = .ok e ∧ parse "(call(a))*b" = .ok f ∧
    e.text = "(* (call call a) b)" ∧ e.text = f.text ∧ e = f ∧ (e == f) = true ∧
    ((Session.new ',').runLine ",call(a) b").1 = .ok e.text ∧
    ((Session.new ':').runLine ":(call(a))*b").1 = .ok e.text ∧
    ∃ g, parse "call(a) b" = .ok g ∧ parse "(call(a))*b" = .ok g := by
  let e : Expr :=
    .operation (.arith .mul) (.operation .call (.name "call") (.name "a")) (.name "b")
  have he : parse "call(a) b" = .ok e := by cbv
  have hf : parse "(call(a))*b" = .ok e := by cbv
  have hmark : (Session.new ',').marked? ",call(a) b" = some "call(a) b" := by decide
  have hmark' : (Session.new ':').marked? ":(call(a))*b" = some "(call(a))*b" := by decide
  have hanswer : ((Session.new ',').runLine ",call(a) b").1 = .ok e.text := by
    rw [Session.runLine_of_marked hmark, he]
    rfl
  have hanswer' : ((Session.new ':').runLine ":(call(a))*b").1 = .ok e.text := by
    rw [Session.runLine_of_marked hmark', hf]
    rfl
  rcases parse_text_inj.1 _ _ e e he hf rfl with ⟨hsame, hbeq⟩
  exact ⟨e, e, he, hf, by decide, rfl, hsame, hbeq, hanswer, hanswer',
    parse_text_inj.2 _ _ _ _ _ _ _ hmark hmark' hanswer hanswer'⟩

end ZPlane
