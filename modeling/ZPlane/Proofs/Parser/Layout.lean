import ZPlane.Proofs.Parser.Location
import ZPlane.Proofs.Token.Layout

/-!
# Layout Does Not Matter

The parser looks at the kinds of tokens, and at their lexemes to quote them. It carries columns
along for the one purpose of reporting them. So if all columns are changed by some function, the
parser does what it did, and the columns in its stack and in its errors are changed by the same
function. `run_relocate` says so for every function, whether or not it keeps columns apart.

The tokens of a text in another layout are the tokens of the text with their columns changed. So
both texts denote the same tree, or both are refused for the same reason, at the same token.

## Main definitions

* `Token.relocate`, `ParseError.relocate`, `Parser.State.relocate`: Columns that are changed by a
  function.
* `Parser.relocated`: A result with its columns changed.

## Theorems

* `Parser.step_relocate`, `Parser.run_relocate`: The parser carries columns along.
* `Token.exists_relocate`: Columns can be changed to any others.
* `parse_layout`: What a text denotes does not depend on its layout.
-/

namespace ZPlane

/-- The token at another column. -/
def Token.relocate (f : Nat → Nat) (t : Token) : Token :=
  { t with column := f t.column }

/-- The error at another column. -/
def ParseError.relocate (f : Nat → Nat) (err : ParseError) : ParseError :=
  { err with column := f err.column }

namespace Parser

/-- The frame, opened at another column. -/
def Frame.relocate (f : Nat → Nat) : Frame → Frame
  | .operation left op binding column => .operation left op binding (f column)
  | .group callee column => .group callee (f column)

/-- The state with other columns on its stack. -/
def State.relocate (f : Nat → Nat) (s : State) : State :=
  { s with stack := s.stack.map (Frame.relocate f) }

/-- A result with other columns: `g` changes them in a value, and an error has one of its own. -/
def relocated {α β : Type} (f : Nat → Nat) (g : α → β) : Except ParseError α → Except ParseError β
  | .ok a => .ok (g a)
  | .error err => .error (err.relocate f)

theorem relocated_bind {α α' β β' : Type} {f : Nat → Nat} {g : α → α'} {g' : β → β'}
    {r : Except ParseError α} {r' : Except ParseError α'} {k : α → Except ParseError β}
    {k' : α' → Except ParseError β'} (hr : r' = relocated f g r)
    (hk : ∀ a, k' (g a) = relocated f g' (k a)) : r' >>= k' = relocated f g' (r >>= k) := by
  subst hr
  cases r with
  | error err => rfl
  | ok a => exact hk a

variable {limits : Limits} (f : Nat → Nat)

theorem depth_relocate (S : List Frame) : depth (S.map (Frame.relocate f)) = depth S := by
  induction S with
  | nil => rfl
  | cons frame S ih =>
    cases frame with
    | operation l op b column =>
      rw [List.map_cons, Frame.relocate, depth_operation, ih, depth_operation]
    | group callee column => rw [List.map_cons, Frame.relocate, depth_group, ih, depth_group]

theorem countOperation_relocate (column n : Nat) :
    countOperation limits (f column) n = relocated f id (countOperation limits column n) := by
  unfold countOperation
  split <;> rfl

theorem finish_relocate (b : Binding) (S : List Frame) (n : Nat) (e : Expr) :
    finish limits b (S.map (Frame.relocate f)) n e =
      relocated f (fun p => (p.1.map (Frame.relocate f), p.2)) (finish limits b S n e) := by
  induction S generalizing n e with
  | nil => rfl
  | cons frame S ih =>
    cases frame with
    | group callee column => rfl
    | operation l op c column =>
      rw [List.map_cons, Frame.relocate]
      by_cases hc : b.level ≤ c.level
      · rw [finish_of_le hc, finish_of_le hc]
        exact relocated_bind (countOperation_relocate f column n) fun m => ih m _
      · rw [finish_of_lt (by omega), finish_of_lt (by omega)]
        rfl

theorem openGroup_relocate (callee : Option Expr) (column : Nat) (S : List Frame) (n : Nat) :
    openGroup limits callee (f column) (S.map (Frame.relocate f)) n =
      relocated f (State.relocate f) (openGroup limits callee column S n) := by
  unfold openGroup
  rw [depth_relocate]
  split <;> rfl

theorem closeGroup_relocate (callee : Option Expr) (column : Nat) (S : List Frame) (n : Nat)
    (e : Expr) :
    closeGroup limits callee (f column) (S.map (Frame.relocate f)) n e =
      relocated f (State.relocate f) (closeGroup limits callee column S n e) := by
  cases callee with
  | none => rfl
  | some g => exact relocated_bind (countOperation_relocate f column n) fun _ => rfl

theorem openOperation_relocate (s : State) (e : Expr) (op : Operator) (b : Binding) (column : Nat)
    (next : Mode) :
    openOperation limits (s.relocate f) e op b (f column) next =
      relocated f (State.relocate f) (openOperation limits s e op b column next) :=
  relocated_bind (finish_relocate f b s.stack s.operations e) fun _ => rfl

theorem startOperand_relocate (s : State) (t : Token) :
    startOperand limits (s.relocate f) (t.relocate f) =
      relocated f (State.relocate f) (startOperand limits s t) := by
  unfold startOperand
  dsimp only [Token.relocate]
  split
  · rfl
  · split
    · exact openGroup_relocate f none t.column s.stack s.operations
    · rfl
    · rfl

theorem startSum_relocate (s : State) (t : Token) :
    startSum limits (s.relocate f) (t.relocate f) =
      relocated f (State.relocate f) (startSum limits s t) := by
  have hoperand := @startOperand_relocate limits f s t
  rcases t with ⟨kind, lexeme, column⟩
  cases kind with
  | plus => rfl
  | minus => rfl
  | _ => exact hoperand

theorem endSum_relocate (s : State) (e : Expr) (t : Token) :
    endSum limits (s.relocate f) e (t.relocate f) =
      relocated f (State.relocate f) (endSum limits s e t) := by
  refine relocated_bind (finish_relocate f .assignment s.stack s.operations e) ?_
  rintro ⟨S, n, e⟩
  -- What is at the top of the stack decides what may follow, and so does the kind of the token.
  rcases t with ⟨kind, lexeme, column⟩
  rcases S with _ | ⟨frame, S⟩
  · cases kind with
    | equal => cases e <;> rfl
    | _ => rfl
  cases frame with
  | operation l op b k =>
    cases kind with
    | equal => cases e <;> rfl
    | _ => rfl
  | group callee k =>
    cases kind with
    | rightParen => exact closeGroup_relocate f callee k S n e
    | _ => rfl

theorem afterOperand_relocate (s : State) (e : Expr) (c : Bool) (t : Token) :
    afterOperand limits (s.relocate f) e c (t.relocate f) =
      relocated f (State.relocate f) (afterOperand limits s e c t) := by
  unfold afterOperand
  dsimp only [Token.relocate]
  split
  · exact openOperation_relocate f s e _ _ t.column _
  · split
    · exact openOperation_relocate f s e _ _ t.column _
    · split
      · exact openGroup_relocate f (some e) t.column s.stack s.operations
      · exact endSum_relocate f s e t

theorem step_relocate (s : State) (t : Token) :
    step limits (s.relocate f) (t.relocate f) =
      relocated f (State.relocate f) (step limits s t) := by
  rcases s with ⟨S, n, m⟩
  cases m with
  | signed => exact startSum_relocate f _ t
  | operand => exact startOperand_relocate f _ t
  | read e c => exact afterOperand_relocate f _ e c t
  | ended e => rfl

/-- The parser carries columns along. -/
theorem run_relocate (s : State) (ts : List Token) :
    run limits (s.relocate f) (ts.map (Token.relocate f)) =
      relocated f (State.relocate f) (run limits s ts) := by
  induction ts generalizing s with
  | nil => rfl
  | cons t ts ih => exact relocated_bind (step_relocate f s t) ih

end Parser

theorem Expr.ofTokens_relocate {f : Nat → Nat} (hf : f 0 = 0) (ts : List Token) :
    Expr.ofTokens (ts.map (Token.relocate f)) = Parser.relocated f id (Expr.ofTokens ts) := by
  refine Parser.relocated_bind (Parser.run_relocate f .initial ts) ?_
  rintro ⟨S, n, m⟩
  cases m with
  | ended e => rfl
  | _ =>
    -- There is no token to blame, and the column for that is kept.
    change Except.error (ParseError.mk 0 .endOfTokens) =
      Except.error (ParseError.mk (f 0) .endOfTokens)
    rw [hf]

namespace Token

/-- Tokens that differ in their columns only, where the columns of the first ones are told apart,
    are the first ones with their columns changed by a function. -/
theorem exists_relocate {ts us : List Token}
    (h : List.Forall₂ (fun t u => u = { t with column := u.column }) ts us)
    (hcolumns : ts.Pairwise fun t u => t.column < u.column) (hpos : ∀ t ∈ ts, 0 < t.column) :
    ∃ f : Nat → Nat, f 0 = 0 ∧ us = ts.map (relocate f) := by
  induction h with
  | nil => exact ⟨id, rfl, rfl⟩
  | @cons t u ts us htu _ ih =>
    rcases List.pairwise_cons.mp hcolumns with ⟨hlater, hcolumns⟩
    rcases List.forall_mem_cons.mp hpos with ⟨ht, hpos⟩
    rcases ih hcolumns hpos with ⟨f, hf, rfl⟩
    refine ⟨Function.update f t.column u.column, ?_, ?_⟩
    · rw [Function.update_of_ne (Nat.ne_of_lt ht), hf]
    · rw [List.map_cons]
      refine congrArg₂ List.cons ?_ (List.map_congr_left fun v hv => ?_)
      · rw [relocate, Function.update_self]
        exact htu
      · rw [relocate, relocate, Function.update_of_ne (Nat.ne_of_gt (hlater v hv))]

/-- A layout changes the columns of tokens only. -/
theorem forall₂_placed {ws : List String} {ts : List Token} (h : ws.length = ts.length)
    (column : Nat) :
    List.Forall₂ (fun t u => u = { t with column := u.column }) ts (placed column ws ts) := by
  induction ts generalizing ws column with
  | nil =>
    rw [placed_nil]
    exact .nil
  | cons t ts ih =>
    rcases ws with _ | ⟨w, ws⟩
    · cases h
    · exact .cons rfl (ih (Nat.succ.inj h) _)

end Token

open Token

theorem parse_of_scan {text : String} {tokens : List Token} (h : scan text = .ok tokens) :
    parse text = (Expr.ofTokens tokens).mapError .parse := by
  unfold parse
  rw [h]

/-- The layout of a text does not matter. Whatever blanks stand around its tokens, as long as they
    keep them apart, the tokens are found at their new columns. The text denotes the same tree as
    before, or it is refused for the same reason and at the same token. -/
theorem parse_layout {text : String} {tokens : List Token} {ws : List String}
    (hscan : scan text = .ok tokens) (hws : Gaps ws tokens) :
    scan (layout ws tokens) = .ok (placed 1 ws tokens) ∧
    (∀ e, parse text = .ok e → parse (layout ws tokens) = .ok e) ∧
    ∀ err, parse text = .error err → ∃ p p', err = .parse p ∧
      parse (layout ws tokens) = .error (.parse p') ∧ p'.cause = p.cause ∧
      ∃ i : Nat, tokens[i]?.map Token.column = some p.column ∧
        (placed 1 ws tokens)[i]?.map Token.column = some p'.column := by
  have hlayout := scan_layout hscan hws
  have hpos : ∀ t ∈ tokens, 0 < t.column := by
    intro t ht
    rcases placed_of_scan hscan ht with ⟨before, -, -, hcolumn⟩
    omega
  rcases exists_relocate (forall₂_placed hws.length 1) (columns_of_scan hscan) hpos with
    ⟨f, hf, hplaced⟩
  have htree := Expr.ofTokens_relocate hf tokens
  rw [← hplaced] at htree
  rw [parse_of_scan hscan, parse_of_scan hlayout, htree]
  refine ⟨hlayout, ?_⟩
  rcases hresult : Expr.ofTokens tokens with p | e
  · refine ⟨fun e he => (by cases he), fun err herr => ?_⟩
    cases herr
    -- The token that is blamed is moved along with all others.
    rcases Expr.exists_blamed hscan hresult with ⟨before, t, later, rfl, hcolumn, -⟩
    refine ⟨p, p.relocate f, rfl, rfl, rfl, before.length, ?_, ?_⟩
    · simp [hcolumn]
    · simp [hplaced, relocate, ParseError.relocate, hcolumn]
  · refine ⟨fun e' he' => ?_, fun err herr => (by cases herr)⟩
    cases he'
    rfl

/-- A product with a minus sign, on one line and on two. -/
theorem parse_layout_product : ∃ tokens e, scan "-x y" = .ok tokens ∧ parse "-x y" = .ok e ∧
    Gaps ["", "\r\n", "\t ", ""] tokens ∧ parse "-\r\nx\t y" = .ok e := by
  let tokens : List Token := [⟨.minus, "-", 1⟩, ⟨.identifier "x", "x", 2⟩,
    ⟨.identifier "y", "y", 4⟩, ⟨.endOfText, "", 5⟩]
  have hscan : scan "-x y" = .ok tokens := by cbv
  have hparse : parse "-x y" = .ok (.operation (.arith .sub) (.literal .zero)
      (.operation (.arith .mul) (.name "x") (.name "y"))) := by
    cbv
  have hgaps : Gaps ["", "\r\n", "\t ", ""] tokens := by
    refine ⟨rfl, by simp, fun i t u w ht hu hw hmerges => ?_⟩
    -- Only the names would run together.
    rcases i with _ | _ | _ | i
    · cases ht
      exact hmerges.elim
    · cases hw
      decide
    · cases hu
      cases ht
      exact hmerges.elim
    · cases hu
  exact ⟨tokens, _, hscan, hparse, hgaps, (parse_layout hscan hgaps).2.1 _ hparse⟩

end ZPlane
