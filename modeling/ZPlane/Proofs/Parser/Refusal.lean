import ZPlane.Proofs.Parser.Soundness

/-!
# Why a Token Is Refused

`Move` says what a token can do to the state of the parser. `Refusal` says why it can do
nothing: one constructor for each way in which a step fails, with the error that it fails
with. A token is blamed itself, except where an operation too many is finished. That one is
blamed on the token that opened the operation, which was read before.

A run fails at its first token that is refused, and what follows that token is never looked
at. The tokens of a text end with the end of the text, so a text that is no expression has
such a token.

## Main definitions

* `ParseError.Cause.IsSyntactic`: The causes that are no exceeded limit.
* `Parser.Frame.counted`: The frames that are counted as operations.
* `Parser.Refusal`: Why a step fails.

## Theorems

* `Parser.finish_eq_error`: An operation too many is blamed where it was opened.
* `Parser.refusal_of_step`: A step that fails is a refusal.
* `Parser.Refusal.column_eq`: Unless a limit is exceeded, the token is blamed itself.
* `Parser.exists_of_run_error`: A run fails at a token that is refused.
* `Expr.exists_of_error`: Tokens that are no expression have a token that is refused.
-/

namespace ZPlane

/-- The causes that lie in the text alone, whatever the limits are. -/
def ParseError.Cause.IsSyntactic : ParseError.Cause → Prop
  | .expectedExpression => True
  | .unexpectedToken _ => True
  | .unterminatedParenthesis => True
  | .invalidAssignmentTarget _ => True
  | .nestingTooDeep => False
  | .expressionTooLarge => False
  | .endOfTokens => False

namespace Parser

variable {limits : Limits}

theorem countOperation_eq_error {column n : Nat} {err : ParseError}
    (h : countOperation limits column n = .error err) :
    limits.operations ≤ n ∧ err = ⟨column, .expressionTooLarge⟩ := by
  unfold countOperation at h
  split at h
  · cases h
  · next hle => exact ⟨Nat.not_lt.mp hle, (Except.error.inj h).symm⟩

theorem openGroup_eq_error {callee : Option Expr} {column n : Nat} {S : List Frame}
    {err : ParseError} (h : openGroup limits callee column S n = .error err) :
    limits.nesting ≤ depth S ∧ err = ⟨column, .nestingTooDeep⟩ := by
  unfold openGroup at h
  split at h
  · cases h
  · next hle => exact ⟨Nat.not_lt.mp hle, (Except.error.inj h).symm⟩

/-- The column of the token that opened a frame. -/
def Frame.column : Frame → Nat
  | .operation _ _ _ column => column
  | .group _ column => column

/-- Whether a frame is counted as an operation when it is finished. A group is, if it is the
    argument of a call. -/
def Frame.counted : Frame → Bool
  | .operation .. => true
  | .group callee _ => callee.isSome

/-- An operation too many is blamed where it was opened. -/
theorem finish_eq_error {b : Binding} {S : List Frame} {n : Nat} {e : Expr} {err : ParseError}
    (h : finish limits b S n e = .error err) :
    ∃ frame ∈ S, frame.counted = true ∧ err = ⟨frame.column, .expressionTooLarge⟩ := by
  induction S generalizing n e with
  | nil => cases h
  | cons frame rest ih =>
    cases frame with
    | group callee column => cases h
    | operation l op c column =>
      by_cases hc : b.level ≤ c.level
      · rw [finish_of_le hc] at h
        rcases error_cases_of_bind h with hcount | ⟨m, _, hrest⟩
        · exact ⟨_, List.mem_cons_self, rfl, (countOperation_eq_error hcount).2⟩
        · rcases ih hrest with ⟨frame, hmem, hframe⟩
          exact ⟨frame, List.mem_cons_of_mem _ hmem, hframe⟩
      · rw [finish_of_lt (by omega)] at h
        cases h

/-- What stays open was open before. -/
theorem finish_suffix {b : Binding} {S S' : List Frame} {n n' : Nat} {e e' : Expr}
    (h : finish limits b S n e = .ok (S', n', e')) : S' <:+ S := by
  induction S generalizing n e with
  | nil =>
    rw [finish_nil] at h
    cases h
    exact List.suffix_refl _
  | cons frame rest ih =>
    cases frame with
    | group callee column =>
      rw [finish_group] at h
      cases h
      exact List.suffix_refl _
    | operation l op c column =>
      by_cases hc : b.level ≤ c.level
      · rw [finish_of_le hc] at h
        rcases ok_and_ok_of_bind h with ⟨m, _, hrest⟩
        exact (ih hrest).trans (List.suffix_cons _ _)
      · rw [finish_of_lt (by omega)] at h
        cases h
        exact List.suffix_refl _

/-- Why a token can do nothing to the state, and the error that says so. -/
inductive Refusal (limits : Limits) : State → Token → ParseError → Prop
  /-- The text ends where an operand is to come. -/
  | missing {S : List Frame} {n : Nat} {m : Mode} {t : Token} :
      m.Awaits → t.kind = .endOfText →
      Refusal limits ⟨S, n, m⟩ t ⟨t.column, .expectedExpression⟩
  /-- The token starts no operand, where one is to come. -/
  | misplaced {S : List Frame} {n : Nat} {m : Mode} {t : Token} :
      m.Awaits → t.kind ≠ .endOfText →
      Refusal limits ⟨S, n, m⟩ t ⟨t.column, .unexpectedToken t.lexeme⟩
  /-- One group too many is opened. -/
  | deep {S : List Frame} {n : Nat} {m : Mode} {t : Token} :
      t.kind = .leftParen → limits.nesting ≤ depth S →
      Refusal limits ⟨S, n, m⟩ t ⟨t.column, .nestingTooDeep⟩
  /-- One operation too many is finished. -/
  | large {S : List Frame} {n : Nat} {e : Expr} {c : Bool} {t : Token} {b : Binding}
      {err : ParseError} :
      finish limits b S n e = .error err → Refusal limits ⟨S, n, .read e c⟩ t err
  /-- One call too many is finished. -/
  | largeCall {S S' : List Frame} {n n' column : Nat} {e e' f : Expr} {c : Bool} {t : Token} :
      t.kind = .rightParen →
      finish limits .assignment S n e = .ok (.group (some f) column :: S', n', e') →
      limits.operations ≤ n' →
      Refusal limits ⟨S, n, .read e c⟩ t ⟨column, .expressionTooLarge⟩
  /-- Something else than its parenthesis ends a group. -/
  | unterminated {S S' : List Frame} {n n' column : Nat} {e e' : Expr} {c : Bool} {t : Token}
      {callee : Option Expr} :
      t.kind ≠ .rightParen →
      finish limits .assignment S n e = .ok (.group callee column :: S', n', e') →
      Refusal limits ⟨S, n, .read e c⟩ t ⟨t.column, .unterminatedParenthesis⟩
  /-- The left side of an assignment is no name. -/
  | target {S : List Frame} {n n' : Nat} {e e' : Expr} {c : Bool} {t : Token} :
      t.kind = .equal → finish limits .assignment S n e = .ok ([], n', e') →
      (∀ x, e' ≠ .name x) →
      Refusal limits ⟨S, n, .read e c⟩ t ⟨t.column, .invalidAssignmentTarget e'.text⟩
  /-- The token cannot follow an expression. -/
  | trailing {S : List Frame} {n n' : Nat} {e e' : Expr} {c : Bool} {t : Token} :
      t.kind ≠ .equal → t.kind ≠ .endOfText →
      finish limits .assignment S n e = .ok ([], n', e') →
      Refusal limits ⟨S, n, .read e c⟩ t ⟨t.column, .unexpectedToken t.lexeme⟩

theorem refusal_of_startOperand {S : List Frame} {n : Nat} {m : Mode} {t : Token}
    {err : ParseError} (hm : m.Awaits) (h : startOperand limits ⟨S, n, m⟩ t = .error err) :
    Refusal limits ⟨S, n, m⟩ t err := by
  unfold startOperand at h
  split at h
  · cases h
  · split at h
    · next hk =>
      rcases openGroup_eq_error h with ⟨hdepth, rfl⟩
      exact .deep hk hdepth
    · next hk =>
      cases h
      exact .missing hm hk
    · next hne =>
      cases h
      exact .misplaced hm hne

theorem refusal_of_startSum {S : List Frame} {n : Nat} {t : Token} {err : ParseError}
    (h : startSum limits ⟨S, n, .signed⟩ t = .error err) :
    Refusal limits ⟨S, n, .signed⟩ t err := by
  unfold startSum at h
  split at h
  · cases h
  · cases h
  · exact refusal_of_startOperand (.inl rfl) h

theorem refusal_of_endSum {S : List Frame} {n : Nat} {e : Expr} {c : Bool} {t : Token}
    {err : ParseError} (h : endSum limits ⟨S, n, .read e c⟩ e t = .error err) :
    Refusal limits ⟨S, n, .read e c⟩ t err := by
  rcases error_cases_of_bind h with hfin | ⟨⟨S', n', e'⟩, hfin, hrest⟩
  · exact .large hfin
  dsimp only at hfin hrest
  rcases finish_assignment_stack hfin with rfl | ⟨callee, column, rest, rfl⟩
  · -- At the bottom of the stack only an assignment can go on.
    dsimp only at hrest
    split at hrest
    · next hk =>
      split at hrest
      · cases hrest
      · next hname =>
        cases hrest
        exact .target hk hfin hname
    · cases hrest
    · next hequal hend =>
      cases hrest
      exact .trailing hequal hend hfin
  · -- Inside of a group only its parenthesis can follow, and it may finish a call.
    dsimp only at hrest
    split at hrest
    · next hk =>
      cases callee with
      | none => cases hrest
      | some f =>
        rcases error_cases_of_bind hrest with hcount | ⟨m, _, hstate⟩
        · rcases countOperation_eq_error hcount with ⟨hle, rfl⟩
          exact .largeCall hk hfin hle
        · cases hstate
    · next hk =>
      cases hrest
      exact .unterminated hk hfin

theorem refusal_of_afterOperand {S : List Frame} {n : Nat} {e : Expr} {c : Bool} {t : Token}
    {err : ParseError} (h : afterOperand limits ⟨S, n, .read e c⟩ e c t = .error err) :
    Refusal limits ⟨S, n, .read e c⟩ t err := by
  -- Opening an operation fails only where those below it are finished.
  have hopen {op : Operator} {b : Binding} {column : Nat} {next : Mode}
      (h : openOperation limits ⟨S, n, .read e c⟩ e op b column next = .error err) :
      Refusal limits ⟨S, n, .read e c⟩ t err := by
    rcases error_cases_of_bind h with hfin | ⟨p, _, hstate⟩
    · exact .large hfin
    · cases hstate
  unfold afterOperand at h
  split at h
  · exact hopen h
  · split at h
    · exact hopen h
    · split at h
      · next hk =>
        rcases openGroup_eq_error h with ⟨hdepth, rfl⟩
        exact .deep hk hdepth
      · exact refusal_of_endSum h

/-- A step that fails is a refusal. -/
theorem refusal_of_step {s : State} {t : Token} {err : ParseError}
    (h : step limits s t = .error err) : Refusal limits s t err := by
  rcases s with ⟨S, n, m⟩
  cases m with
  | signed => exact refusal_of_startSum h
  | operand => exact refusal_of_startOperand (.inr rfl) h
  | read e c => exact refusal_of_afterOperand h
  | ended e => cases h

/-- Unless a limit is exceeded, the token is blamed itself. -/
theorem Refusal.column_eq {s : State} {t : Token} {err : ParseError} (h : Refusal limits s t err)
    (hcause : err.cause.IsSyntactic) : t.column = err.column := by
  cases h with
  | large hfin =>
    rcases finish_eq_error hfin with ⟨frame, _, _, rfl⟩
    exact hcause.elim
  | largeCall _ _ _ => exact hcause.elim
  | _ => rfl

/-- A run fails at a token that is refused. -/
theorem exists_of_run_error {s : State} {ts : List Token} {err : ParseError}
    (h : run limits s ts = .error err) :
    ∃ before t later s', ts = before ++ t :: later ∧ run limits s before = .ok s' ∧
      step limits s' t = .error err := by
  induction ts generalizing s with
  | nil => cases h
  | cons t ts ih =>
    rcases error_cases_of_bind h with hstep | ⟨s₁, hstep, hrest⟩
    · exact ⟨[], t, ts, s, rfl, rfl, hstep⟩
    · rcases ih hrest with ⟨before, u, later, s', rfl, hrun, hfail⟩
      refine ⟨t :: before, u, later, s', rfl, ?_, hfail⟩
      rw [run_cons_of_move (step_eq_ok_iff.mp hstep), hrun]

/-- What follows a token that is refused is never looked at. -/
theorem run_eq_error {s s' : State} {before : List Token} {t : Token} {err : ParseError}
    (hrun : run limits s before = .ok s') (hstep : step limits s' t = .error err)
    (later : List Token) : run limits s (before ++ t :: later) = .error err := by
  rw [run_append_of_run hrun, run_cons, hstep]
  rfl

end Parser

namespace Expr

variable {limits : Parser.Limits}

/-- Tokens with the end of the text behind them that are no expression have a token that is
    refused, and all before it are read. -/
theorem exists_of_error {us : List Token} {last : Token} {err : ParseError}
    (hus : ∀ u ∈ us, u.kind ≠ .endOfText) (hlast : last.kind = .endOfText)
    (h : ofTokensWithin limits (us ++ [last]) = .error err) :
    ∃ before t later s, us ++ [last] = before ++ t :: later ∧
      (∀ u ∈ before, u.kind ≠ .endOfText) ∧ Parser.run limits .initial before = .ok s ∧
      Parser.step limits s t = .error err := by
  rcases error_cases_of_bind h with hrun | ⟨s, hrun, hmode⟩
  · rcases Parser.exists_of_run_error hrun with ⟨before, t, later, s, heq, hbefore, hstep⟩
    have hstart : before <+: us := by
      refine List.prefix_of_prefix_length_le ⟨t :: later, heq.symm⟩ ⟨[last], rfl⟩ ?_
      have hlength := congrArg List.length heq
      simp only [List.length_append, List.length_cons, List.length_nil] at hlength
      omega
    exact ⟨before, t, later, s, heq, fun u hu => hus u (hstart.subset hu), hbefore, hstep⟩
  · -- A run to the end of the text has an expression.
    rcases Parser.derives_of_run hrun hus hlast with ⟨n, e, rfl, _, _⟩
    cases hmode

/-- The error that a token is refused with is that of every list with the same beginning. -/
theorem ofTokensWithin_eq_error {s : Parser.State} {before : List Token} {t : Token}
    {err : ParseError} (hrun : Parser.run limits .initial before = .ok s)
    (hstep : Parser.step limits s t = .error err) (later : List Token) :
    ofTokensWithin limits (before ++ t :: later) = .error err := by
  unfold ofTokensWithin
  rw [Parser.run_eq_error hrun hstep]
  rfl

end Expr

end ZPlane
