import ZPlane.Proofs.Parser.Refusal
import ZPlane.Proofs.Program
import ZPlane.Proofs.Token.Tiling

/-!
# Where Errors Are Reported

Every text that is no expression is refused at one of its columns, and what stands there fits
the reason that is given. A misplaced token is quoted as it is written in the text, a missing
operand is reported at the end, and a group too deep at its parenthesis.

An operation too many is the one case where the blame is not on the token at hand. It goes to
the token that opened the operation, so the parser has to remember the columns of such tokens
on its stack. `Opened` says what a column on the stack stands for, and every move keeps it. A
sign or `=` opens an operation by what it is. The parenthesis of a call and the first token
of a factor do so only behind an operand, so the words that were read come in here.

## Main definitions

* `Grammar.Operates`: The tokens that start an operation.
* `Parser.Opened`: A frame was opened by a token that was read.
* `ParseError.Cause.Blames`: What a cause says about the token that is blamed.
* `Error.Located`: An error that is reported at the right place.

## Theorems

* `Token.column_of_scanFrom_error`: An error of scanning is reported at a character.
* `Parser.Move.opened`, `Parser.opened_of_run`: Frames are opened by tokens that were read.
* `Parser.Refusal.exists_blamed`: The token to blame.
* `located_of_parse_error`: Every error of a text is reported at the right place.
-/

namespace ZPlane

namespace Token

/-- An error of scanning is reported at one of the characters. -/
theorem column_of_scanFrom_error {column : Nat} {cs : List Char} {err : ScanError}
    (h : scanFrom column cs = .error err) :
    column ≤ err.column ∧ err.column < column + cs.length := by
  fun_induction scanFrom column cs with
  | case1 column => cases h
  | case2 column c cs hblank ih =>
    have hrest := ih h
    rw [List.length_cons]
    omega
  | case3 column c cs hblank halpha =>
    rename_i lexeme name ih
    have hrest := ih (error_of_map_eq_error h)
    have hlexeme : lexeme.length = (cs.takeWhile Char.isAlpha).length + 1 := rfl
    have hlength := congrArg List.length (cs.takeWhile_append_dropWhile (p := Char.isAlpha))
    rw [List.length_append] at hlength
    rw [List.length_cons]
    omega
  | case4 column c cs hblank halpha hdigit =>
    rename_i numeral lexeme hfinite ih
    have hrest := ih (error_of_map_eq_error h)
    have hlength : (numeral.chars ++ Numeral.drop cs).length = (c :: cs).length :=
      congrArg List.length (Numeral.chars_take_append_drop c cs)
    rw [List.length_append] at hlength
    omega
  | case5 column c cs hblank halpha hdigit =>
    cases h
    simp
  | case6 column c cs hblank halpha hdigit kind hkind ih =>
    have hrest := ih (error_of_map_eq_error h)
    rw [List.length_cons]
    omega
  | case7 column c cs hblank halpha hdigit hkind =>
    cases h
    simp

end Token

namespace Grammar

/-- The tokens that end an operand. -/
def EndsOperand : Token.Kind → Prop
  | .number _ => True
  | .identifier _ => True
  | .rightParen => True
  | _ => False

/-- The tokens that start an operation, given the word before them. -/
inductive Operates : List Token.Kind → Token.Kind → Prop
  /-- The sign of an operator. -/
  | sign {ks : List Token.Kind} {rule : Rule} {k : Token.Kind} {a : Arith} :
      Joins rule k a → Operates ks k
  /-- The sign of an assignment. -/
  | equal {ks : List Token.Kind} : Operates ks .equal
  /-- The parenthesis of a call, behind a name or a group. The group is not an argument
      itself, since no operand stands before it. -/
  | argument {ps fs : List Token.Kind} {f : Expr} :
      Derives .callee fs f →
      (fs.head? = some .leftParen → ∀ k ∈ ps.getLast?, ¬ EndsOperand k) →
      Operates (ps ++ fs) .leftParen
  /-- The number or name that a juxtaposed factor starts with, behind another factor. -/
  | factor {ps ls : List Token.Kind} {l : Expr} {k : Token.Kind} :
      IsAtom k → Derives .juxtaposition ls l → Operates (ps ++ ls) k

theorem Joins.not_endsOperand {rule : Rule} {k : Token.Kind} {a : Arith} (h : Joins rule k a) :
    ¬ EndsOperand k := by
  cases h <;> exact id

end Grammar

open Grammar

namespace Parser

variable {limits : Limits}

/-- Where an operand is to come, and not as a factor, none stands before it. -/
theorem Awaits.not_endsOperand {S : List Frame} {rule : Rule} {ks : List Token.Kind}
    (h : Awaits S rule ks) (hfactor : ¬ AwaitsFactor S) : ∀ k ∈ ks.getLast?, ¬ EndsOperand k := by
  have hlast {ks : List Token.Kind} {k : Token.Kind} (hk : ¬ EndsOperand k) :
      ∀ k' ∈ (ks ++ [k]).getLast?, ¬ EndsOperand k' := by
    intro k' hk'
    rw [List.getLast?_concat] at hk'
    cases hk'
    exact hk
  cases h with
  | positive _ _ _ => exact hlast id
  | plain hopens _ =>
    cases hopens with
    | bottom => simp
    | assign _ => exact hlast id
    | group _ _ => exact hlast id
    | argument _ => exact hlast id
    | negative _ _ => exact hlast id
    | binary hjoin _ => exact hlast hjoin.not_endsOperand
    | juxtaposed _ => exact absurd ⟨_, _, _, _, rfl⟩ hfactor

/-- A parenthesis behind a callee is that of a call. -/
theorem Holds.operates_argument {S : List Frame} {f : Expr} {ks : List Token.Kind}
    (h : Holds S .callee f ks) : Operates ks .leftParen := by
  cases h with
  | operand hawaits hd hstart =>
    refine .argument hd fun hgroup => hawaits.not_endsOperand fun hfactor => ?_
    -- A factor starts with a number or a name, and so not with a parenthesis.
    rcases hstart hfactor with ⟨k, rest, rfl, hatom⟩
    cases hgroup
    exact hatom

/-- A number or a name behind a factor starts another one. -/
theorem Holds.operates_factor {S : List Frame} {l : Expr} {ks : List Token.Kind}
    {k : Token.Kind} (h : Holds S .juxtaposition l ks) (hk : IsAtom k) : Operates ks k := by
  cases h with
  | operand _ hd _ => exact .factor hk hd

/-- A frame that counts as an operation was opened by a token that was read and that starts an
    operation. -/
def Opened (read : List Token) (frame : Frame) : Prop :=
  frame.counted = true → ∃ before t later, read = before ++ t :: later ∧
    frame.column = t.column ∧ Operates (before.map Token.kind) t.kind

theorem Opened.append {read : List Token} {frame : Frame} (h : Opened read frame) (t : Token) :
    Opened (read ++ [t]) frame := by
  intro hcounted
  rcases h hcounted with ⟨before, u, later, rfl, hcolumn, hoperates⟩
  exact ⟨before, u, later ++ [t], by simp, hcolumn, hoperates⟩

/-- The token at hand opens a frame. -/
theorem opened_concat {read : List Token} {t : Token} {frame : Frame}
    (hcolumn : frame.column = t.column) (h : Operates (read.map Token.kind) t.kind) :
    Opened (read ++ [t]) frame :=
  fun _ => ⟨read, t, [], rfl, hcolumn, h⟩

/-- After a move, every frame was opened by a token that was read. -/
theorem Move.opened {s s' : State} {t : Token} {read : List Token} (h : Move limits s t s')
    (hspelled : Spelled s (read.map Token.kind)) (hs : ∀ frame ∈ s.stack, Opened read frame) :
    ∀ frame ∈ s'.stack, Opened (read ++ [t]) frame := by
  -- What stays open was opened before, and only a frame on top of it is new.
  have hold : ∀ frame ∈ s.stack, Opened (read ++ [t]) frame :=
    fun frame hframe => (hs frame hframe).append t
  have hkept {b : Binding} {S' : List Frame} {n n' : Nat} {e e' : Expr}
      (hfin : finish limits b s.stack n e = .ok (S', n', e')) :
      ∀ frame ∈ S', Opened (read ++ [t]) frame :=
    fun frame hframe => hold frame ((finish_suffix hfin).subset hframe)
  cases h with
  | atom _ _ => exact hold
  | plus _ => exact hold
  | ended => exact hold
  | minus hk =>
    refine List.forall_mem_cons.mpr ⟨opened_concat rfl ?_, hold⟩
    rw [hk]
    exact .sign .minus
  | group _ _ _ =>
    refine List.forall_mem_cons.mpr ⟨fun hcounted => ?_, hold⟩
    exact absurd hcounted Bool.false_ne_true
  | argument hk _ =>
    refine List.forall_mem_cons.mpr ⟨opened_concat rfl ?_, hold⟩
    rw [hk]
    exact Holds.operates_argument hspelled
  | binary hop hfin =>
    exact List.forall_mem_cons.mpr ⟨opened_concat rfl (.sign (binary?_joins hop)), hkept hfin⟩
  | juxtaposed hatom hfin =>
    have hleft := Holds.finishes (by simp) (Holds.primary hspelled) hfin (by decide)
    have hoperates := hleft.operates_factor (derives_of_atom? hatom).2
    exact List.forall_mem_cons.mpr ⟨opened_concat rfl hoperates, hkept hfin⟩
  | close _ hfin => exact (List.forall_mem_cons.mp (hkept hfin)).2
  | closeCall _ hfin _ => exact (List.forall_mem_cons.mp (hkept hfin)).2
  | assign hk _ =>
    refine List.forall_mem_singleton.mpr (opened_concat rfl ?_)
    rw [hk]
    exact .equal
  | stop _ _ => simp

/-- After a run, every frame was opened by a token that was read. -/
theorem opened_of_run {s : State} {ts : List Token} (h : run limits .initial ts = .ok s)
    (hts : ∀ t ∈ ts, t.kind ≠ .endOfText) : ∀ frame ∈ s.stack, Opened ts frame := by
  have hinvariant : Spelled s (ts.map Token.kind) ∧ ∀ frame ∈ s.stack, Opened ts frame := by
    refine run_invariant (P := fun read s₁ => Spelled s₁ (read.map Token.kind) ∧
      ∀ frame ∈ s₁.stack, Opened read frame) h ⟨spelled_initial, by simp [State.initial]⟩ ?_
    rintro read t s₁ s₂ ht hmove ⟨hspelled, hopened⟩
    rw [List.map_append]
    exact ⟨hspelled.move hmove (hts t ht), hmove.opened hspelled hopened⟩
  exact hinvariant.2

end Parser

/-- What a cause says about the token that is blamed and the word before it. -/
def ParseError.Cause.Blames (ks : List Token.Kind) (t : Token) : ParseError.Cause → Prop
  | .expectedExpression => t.kind = .endOfText
  | .unexpectedToken lexeme => t.lexeme = lexeme
  | .unterminatedParenthesis => t.kind ≠ .rightParen
  | .invalidAssignmentTarget _ => t.kind = .equal
  | .nestingTooDeep => t.kind = .leftParen ∧ unclosed ks = 128
  | .expressionTooLarge => Operates ks t.kind
  | .endOfTokens => False

namespace Parser

/-- The token to blame for a refusal is the one that is refused or one that was read before. -/
theorem Refusal.exists_blamed {read : List Token} {t : Token} {s : State} {err : ParseError}
    (h : Refusal .standard s t err) (hrun : run .standard .initial read = .ok s)
    (hread : ∀ u ∈ read, u.kind ≠ .endOfText) :
    ∃ before u later, read ++ [t] = before ++ u :: later ∧ err.column = u.column ∧
      err.cause.Blames (before.map Token.kind) u := by
  have hopened := opened_of_run hrun hread
  have hinitial : State.initial.Within .standard := ⟨Nat.zero_le _, Nat.zero_le _⟩
  have hrunning : State.initial.Running := fun e hended => by cases hended
  have hdepth := depth_of_run hrun hinitial hrunning hread
  have hwithin := (within_of_run hrun hinitial hrunning hread).1
  -- An operation too many is blamed on the token that opened it.
  have hframe {frame : Frame} (hmem : frame ∈ s.stack) (hcounted : frame.counted = true) :
      ∃ before u later, read ++ [t] = before ++ u :: later ∧ frame.column = u.column ∧
        Operates (before.map Token.kind) u.kind :=
    (hopened frame hmem).append t hcounted
  cases h with
  | missing _ hk => exact ⟨read, t, [], rfl, rfl, hk⟩
  | misplaced _ _ => exact ⟨read, t, [], rfl, rfl, rfl⟩
  | unterminated hk _ => exact ⟨read, t, [], rfl, rfl, hk⟩
  | target hk _ _ => exact ⟨read, t, [], rfl, rfl, hk⟩
  | trailing _ _ _ => exact ⟨read, t, [], rfl, rfl, rfl⟩
  | deep hk hdeep =>
    have hnesting := hwithin.nesting
    refine ⟨read, t, [], rfl, rfl, hk, ?_⟩
    exact hdepth.symm.trans (Nat.le_antisymm hnesting hdeep)
  | large hfin =>
    rcases finish_eq_error hfin with ⟨frame, hmem, hcounted, rfl⟩
    exact hframe hmem hcounted
  | largeCall _ hfin _ =>
    have hmem := (finish_suffix hfin).subset List.mem_cons_self
    exact hframe hmem rfl

end Parser

/-- Tokens of a text that are no expression have one that the cause of the error speaks of. -/
theorem Expr.exists_blamed {text : String} {tokens : List Token} {err : ParseError}
    (hscan : Token.scan text = .ok tokens) (h : Expr.ofTokens tokens = .error err) :
    ∃ before t later, tokens = before ++ t :: later ∧ err.column = t.column ∧
      err.cause.Blames (before.map Token.kind) t := by
  rcases Token.exists_of_scan hscan with ⟨us, last, rfl, hlast, hus, -⟩
  rcases Expr.exists_of_error (fun u hu => (hus u hu).ne_endOfText) hlast h with
    ⟨read, t, later, s, heq, hread, hrun, hstep⟩
  rcases (Parser.refusal_of_step hstep).exists_blamed hrun hread with
    ⟨before, u, rest, hblamed, hcolumn, hcause⟩
  refine ⟨before, u, rest ++ later, ?_, hcolumn, hcause⟩
  rw [heq, List.append_cons, hblamed, List.append_assoc]
  rfl

/-- An error that is reported at the right place. An error of scanning has the column of a
    character. An error of parsing has the column of a token, or of the end of the text: the
    lexeme of the token stands there, and the token is one that the cause speaks of. A text
    has no other errors. -/
def Error.Located (text : String) : Error → Prop
  | .scan err => 1 ≤ err.column ∧ err.column ≤ text.length
  | .parse err =>
    1 ≤ err.column ∧ err.column ≤ text.length + 1 ∧
      ∃ before t later, Token.scan text = .ok (before ++ t :: later) ∧ err.column = t.column ∧
        err.cause.Blames (before.map Token.kind) t ∧
        ∃ pre post, text.toList = pre ++ t.lexeme.toList ++ post ∧ err.column = pre.length + 1
  | .runtime _ => False
  | .shader _ => False

/-- Every error of a text is reported at the right place. -/
theorem located_of_parse_error {text : String} {err : Error} (h : parse text = .error err) :
    err.Located text := by
  rcases parse_error_cases h with ⟨e, hscan, rfl⟩ | ⟨tokens, e, hscan, htree, rfl⟩
  · have hcolumn := Token.column_of_scanFrom_error hscan
    rw [String.length_toList] at hcolumn
    exact ⟨hcolumn.1, by omega⟩
  · rcases Expr.exists_blamed hscan htree with ⟨before, t, later, rfl, hcolumn, hblames⟩
    rcases Token.placed_of_scan (t := t) hscan (by simp) with ⟨pre, post, heq, hplace⟩
    have hlength := congrArg List.length heq
    rw [List.length_append, List.length_append, String.length_toList] at hlength
    refine ⟨by omega, by omega, before, t, later, hscan, hcolumn, hblames, pre, post, heq, ?_⟩
    exact hcolumn.trans hplace

/-- A group that is left open is reported at the end of the text. -/
theorem located_of_parse_error_open :
    parse "w = (f(x)" = .error (.parse ⟨10, .unterminatedParenthesis⟩) ∧
      Error.Located "w = (f(x)" (.parse ⟨10, .unterminatedParenthesis⟩) := by
  have hparse : parse "w = (f(x)" = .error (.parse ⟨10, .unterminatedParenthesis⟩) := by
    cbv
  exact ⟨hparse, located_of_parse_error hparse⟩

end ZPlane
