import ZPlane.Proofs.Parser.Language
import ZPlane.Proofs.Parser.Refusal
import ZPlane.Proofs.Token.Tiling

/-!
# Completion

Whatever the parser has read without a refusal is the beginning of an expression. To complete
it takes an operand where one is to come, then the parentheses of all open groups, and then
the end of the text. So a token is not refused before it has to be: the tokens before it are
the beginning of an expression, and with the token they are not, whatever follows.

The only thing in the way is the limit on operations. An open operation is finished sooner or
later, and so is an open call, so a state is committed to more operations than it has counted.
A token commits the parser to at most one more operation, since it either opens one or
finishes some that were open. Beginnings with no more tokens than the limit can therefore be
completed. No more groups are opened, so the limit on those plays no part.

## Main definitions

* `Parser.pending`: The number of open operations.
* `Parser.State.committed`: The operations that a state has counted or has to finish.
* `Parser.State.closing`: The tokens that complete what was read.

## Theorems

* `Parser.Move.committed_le`: A token commits to at most one more operation.
* `Parser.finish_of_committed`: With room for what is pending, operations can be finished.
* `Parser.run_closing`: What was read can be completed.
* `Expr.exists_completion`: A text that completes the beginning of another one.
* `Expr.error_earliest`: Syntax errors are reported as early as possible.
-/

namespace ZPlane

open Grammar

namespace Parser

variable {limits : Limits}

/-- The number of operations that are open, calls among them. -/
def pending (stack : List Frame) : Nat :=
  stack.countP Frame.counted

@[simp]
theorem pending_nil : pending [] = 0 := rfl

@[simp]
theorem pending_operation (l : Expr) (op : Operator) (b : Binding) (column : Nat)
    (S : List Frame) : pending (.operation l op b column :: S) = pending S + 1 :=
  List.countP_cons_of_pos rfl

@[simp]
theorem pending_group (column : Nat) (S : List Frame) :
    pending (.group none column :: S) = pending S :=
  List.countP_cons_of_neg Bool.false_ne_true

@[simp]
theorem pending_argument (f : Expr) (column : Nat) (S : List Frame) :
    pending (.group (some f) column :: S) = pending S + 1 :=
  List.countP_cons_of_pos rfl

/-- The operations that a state has counted or has to finish. -/
def State.committed (s : State) : Nat :=
  s.operations + pending s.stack

/-- What is finished was pending. -/
theorem finish_pending {b : Binding} {S S' : List Frame} {n n' : Nat} {e e' : Expr}
    (h : finish limits b S n e = .ok (S', n', e')) : n' + pending S' = n + pending S := by
  induction S generalizing n e with
  | nil =>
    rw [finish_nil] at h
    cases h
    rfl
  | cons frame rest ih =>
    cases frame with
    | group callee column =>
      rw [finish_group] at h
      cases h
      rfl
    | operation l op c column =>
      by_cases hc : b.level ≤ c.level
      · rw [finish_of_le hc] at h
        rcases ok_and_ok_of_bind h with ⟨m, hcount, hrest⟩
        rcases countOperation_eq_ok hcount with ⟨_, rfl⟩
        rw [ih hrest, pending_operation]
        omega
      · rw [finish_of_lt (by omega)] at h
        cases h
        rfl

/-- A token commits to at most one more operation. -/
theorem Move.committed_le {s s' : State} {t : Token} (h : Move limits s t s') :
    s'.committed ≤ s.committed + 1 := by
  unfold State.committed
  cases h with
  | atom _ _ => exact Nat.le_succ _
  | plus _ => exact Nat.le_succ _
  | minus _ => simp [Nat.add_assoc]
  | group _ _ _ => simp
  | argument _ _ => simp [Nat.add_assoc]
  | ended => exact Nat.le_succ _
  -- Everywhere else operations are finished first, and these are not new.
  | binary _ hfin =>
    have hsame := finish_pending hfin
    simp only [pending_operation]
    omega
  | juxtaposed _ hfin =>
    have hsame := finish_pending hfin
    simp only [pending_operation]
    omega
  | close _ hfin =>
    have hsame := finish_pending hfin
    rw [pending_group] at hsame
    dsimp only
    omega
  | closeCall _ hfin _ =>
    have hsame := finish_pending hfin
    rw [pending_argument] at hsame
    dsimp only
    omega
  | assign _ hfin =>
    have hsame := finish_pending hfin
    simp only [pending_operation, pending_nil] at hsame ⊢
    omega
  | stop _ hfin =>
    have hsame := finish_pending hfin
    dsimp only
    omega

/-- A run commits to at most one operation for each of its tokens. -/
theorem committed_of_run {s s' : State} {ts : List Token} (h : run limits s ts = .ok s') :
    s'.committed ≤ s.committed + ts.length := by
  refine run_invariant (P := fun read s₁ => s₁.committed ≤ s.committed + read.length) h
    (Nat.le_refl _) ?_
  intro read t s₁ s₂ _ hmove hread
  have hnext := hmove.committed_le
  rw [List.length_append, List.length_singleton]
  omega

/-- With room for what is pending, operations can be finished. -/
theorem finish_of_committed {S : List Frame} {n : Nat} (h : n + pending S ≤ limits.operations)
    (b : Binding) (e : Expr) : ∃ S' n' e', finish limits b S n e = .ok (S', n', e') := by
  induction S generalizing n e with
  | nil => exact ⟨_, _, _, rfl⟩
  | cons frame rest ih =>
    cases frame with
    | group callee column => exact ⟨_, _, _, rfl⟩
    | operation l op c column =>
      rw [pending_operation] at h
      by_cases hc : b.level ≤ c.level
      · rw [finish_of_le hc, countOperation_of_lt (by omega)]
        exact ih (by omega) _
      · rw [finish_of_lt (by omega)]
        exact ⟨_, _, _, rfl⟩

/-- After an operand the open groups can be closed one by one, and then the text can end. -/
theorem run_parens {S : List Frame} {n : Nat} {e : Expr} {c : Bool} {ts : List Token} {t : Token}
    (hroom : n + pending S ≤ limits.operations)
    (hts : ts.map Token.kind = List.replicate (depth S) .rightParen) (ht : t.kind = .endOfText) :
    ∃ n' e', run limits ⟨S, n, .read e c⟩ (ts ++ [t]) = .ok ⟨[], n', .ended e'⟩ := by
  -- Each parenthesis closes the innermost group, and the pending operations in it are finished
  -- first. The room that is left for the others stays the same.
  induction ts generalizing S n e c with
  | nil =>
    rcases finish_of_committed hroom .assignment e with ⟨S', n', e', hfin⟩
    have hdepth := (finish_within hfin (by omega)).1
    have hopen : depth S = 0 := by simpa using congrArg List.length hts.symm
    rcases finish_assignment_stack hfin with rfl | ⟨callee, column, rest, rfl⟩
    · exact ⟨n', e', run_cons_of_move (.stop ht hfin) []⟩
    · rw [depth_group] at hdepth
      omega
  | cons u us ih =>
    rcases finish_of_committed hroom .assignment e with ⟨S', n', e', hfin⟩
    have hdepth := (finish_within hfin (by omega)).1
    have hsame := finish_pending hfin
    have hopen : depth S = us.length + 1 := by simpa using congrArg List.length hts.symm
    rw [hopen, List.replicate_succ, List.map_cons, List.cons.injEq] at hts
    rcases finish_assignment_stack hfin with rfl | ⟨callee, column, rest, rfl⟩
    · rw [depth_nil] at hdepth
      omega
    rw [depth_group] at hdepth
    have hrest : us.map Token.kind = List.replicate (depth rest) .rightParen := by
      rw [hts.2]
      congr 1
      omega
    rw [List.cons_append]
    cases callee with
    | none =>
      rw [pending_group] at hsame
      rw [run_cons_of_move (.close hts.1 hfin)]
      exact ih (by omega) hrest
    | some f =>
      rw [pending_argument] at hsame
      rw [run_cons_of_move (.closeCall hts.1 hfin (by omega))]
      exact ih (by omega) hrest

/-- The tokens that complete what was read: an operand where one is to come, and the
    parentheses of all open groups. -/
def State.closing (s : State) : List Token.Kind :=
  match s.mode with
  | .read _ _ => List.replicate (depth s.stack) .rightParen
  | _ => .identifier "z" :: List.replicate (depth s.stack) .rightParen

/-- What was read can be completed. -/
theorem run_closing {s : State} {ts : List Token} {t : Token} (hrunning : s.Running)
    (hroom : s.committed ≤ limits.operations) (hts : ts.map Token.kind = s.closing)
    (ht : t.kind = .endOfText) :
    ∃ n e, run limits s (ts ++ [t]) = .ok ⟨[], n, .ended e⟩ := by
  rcases s with ⟨S, n, m⟩
  -- Where an operand is to come, the first token is one.
  have hoperand (hm : m.Awaits) (hclosing : (State.mk S n m).closing =
      .identifier "z" :: List.replicate (depth S) .rightParen) :
      ∃ n' e, run limits ⟨S, n, m⟩ (ts ++ [t]) = .ok ⟨[], n', .ended e⟩ := by
    rw [hclosing] at hts
    rcases List.map_eq_cons_iff.mp hts with ⟨u, us, rfl, hu, hus⟩
    have hatom : atom? u.kind = some (.name "z", true) := by rw [hu]; rfl
    rw [List.cons_append, run_cons_of_move (.atom hm hatom)]
    exact run_parens hroom hus ht
  cases m with
  | signed => exact hoperand (.inl rfl) rfl
  | operand => exact hoperand (.inr rfl) rfl
  | read e c => exact run_parens hroom hts ht
  | ended e => exact absurd rfl (hrunning e)

/-- A text with the tokens that complete what was read. A blank before it keeps it apart from
    whatever stands before it. -/
theorem exists_spells_closing (s : State) : ∃ cs, Token.Spells (' ' :: cs) s.closing := by
  have hparens (d : Nat) :
      Token.Spells (List.replicate d ')') (List.replicate d .rightParen) := by
    induction d with
    | zero => exact .nil
    | succ d ih => exact ih.symbol rfl
  have hoperand (d : Nat) :
      Token.Spells ('z' :: List.replicate d ')')
        (.identifier "z" :: List.replicate d .rightParen) := by
    have hname := Token.Spells.name (x := "z") (by simp) (by simp)
    have hbreaks : Token.Breaks (List.replicate d ')') := by
      cases d with
      | zero => simp [Token.Breaks]
      | succ d => exact Token.breaks_of_symbol? rfl _
    simpa using hname.append hbreaks (hparens d)
  unfold State.closing
  split
  · exact ⟨_, (hparens _).blank rfl⟩
  · exact ⟨_, (hoperand _).blank rfl⟩

end Parser

namespace Expr

/-- The tokens before a token of a text can be completed, if they are no more than there may be
    operations and none of them is refused. -/
theorem exists_completion {text : String} {before later : List Token} {t : Token}
    {s : Parser.State} (hscan : Token.scan text = .ok (before ++ t :: later))
    (hbefore : ∀ u ∈ before, u.kind ≠ .endOfText)
    (hrun : Parser.run .standard .initial before = .ok s) (hlength : before.length ≤ 512) :
    ∃ text' rest e, Token.scan text' = .ok (before ++ rest) ∧
      ofTokens (before ++ rest) = .ok e := by
  have hcommitted := Parser.committed_of_run hrun
  have hinitial : Parser.State.initial.committed = 0 := rfl
  have hroom : s.committed ≤ Parser.Limits.standard.operations := by
    change s.committed ≤ 512
    omega
  have hrunning := Parser.running_of_run hrun (fun e h => by cases h) hbefore
  -- The text before the token, and behind it the text that closes what is open.
  rcases Token.scans_before hscan with ⟨cs, hcs⟩
  rcases Parser.exists_spells_closing s with ⟨ds, ts, hts, hkinds⟩
  have hmoved := hts.move cs.length
  have hbreaks : Token.Breaks (' ' :: ds) := by
    rintro c ⟨⟩
    decide
  have hwhole := hcs.append hbreaks hmoved
  rw [List.dropLast_concat] at hwhole
  rw [← Token.kinds_move ts cs.length] at hkinds
  rcases hmoved.shape with ⟨us, last, heq, hlast, -⟩
  rw [heq] at hwhole hkinds
  rw [List.dropLast_concat] at hkinds
  rcases Parser.run_closing hrunning hroom hkinds hlast with ⟨n, e, hclosed⟩
  refine ⟨String.ofList (cs ++ ' ' :: ds), us ++ [last], e, ?_, ?_⟩
  · unfold Token.scan
    rw [String.toList_ofList]
    exact Token.scanFrom_of_scans hwhole
  · have hall := (Parser.run_append_of_run hrun (us ++ [last])).trans hclosed
    exact ofTokensWithin_eq_ok.mpr ⟨_, hall, rfl⟩

/-- Syntax errors are reported as early as possible. The token at the reported column is the
    only one there. Every list of tokens that goes as far as that token fails in the same way.
    And if not too many tokens stand before it, some text goes on from them to an
    expression. -/
theorem error_earliest {text : String} {tokens : List Token} {err : ParseError}
    (hscan : Token.scan text = .ok tokens) (h : ofTokens tokens = .error err)
    (hcause : err.cause.IsSyntactic) :
    ∃ k t, tokens[k]? = some t ∧ t.column = err.column ∧
      (∀ j u, tokens[j]? = some u → u.column = err.column → j = k) ∧
      (∀ tokens' : List Token, tokens'.take (k + 1) = tokens.take (k + 1) →
        ofTokens tokens' = .error err) ∧
      (k ≤ 512 → ∃ text' rest e, Token.scan text' = .ok (tokens.take k ++ rest) ∧
        ofTokens (tokens.take k ++ rest) = .ok e) := by
  have hcolumns := Token.columns_of_scan hscan
  rcases Token.exists_of_scan hscan with ⟨us, last, rfl, hlast, hus, -⟩
  rcases exists_of_error (fun u hu => (hus u hu).ne_endOfText) hlast h with
    ⟨before, t, later, s, heq, hbefore, hrun, hstep⟩
  rw [heq] at hscan hcolumns ⊢
  have htake : (before ++ t :: later).take (before.length + 1) = before ++ [t] := by
    rw [List.append_cons]
    exact List.take_left' (by simp)
  have hcolumn := (Parser.refusal_of_step hstep).column_eq hcause
  have hget : (before ++ t :: later)[before.length]? = some t := by simp
  refine ⟨before.length, t, hget, hcolumn, ?_, ?_, ?_⟩
  · intro j u hu hcolumn'
    exact Token.index_eq_of_column_eq hcolumns hu hget (hcolumn'.trans hcolumn.symm)
  · intro tokens' hsame
    rw [htake] at hsame
    rw [← List.take_append_drop (before.length + 1) tokens', hsame, List.append_assoc]
    exact ofTokensWithin_eq_error hrun hstep _
  · intro hlength
    rw [List.take_left]
    exact exists_completion hscan hbefore hrun hlength

/-- The result of a call is not called again, but the call alone can be completed. -/
theorem error_earliest_call : ∃ tokens, Token.scan "f(x)(y)" = .ok tokens ∧
    ofTokens tokens = .error ⟨5, .unexpectedToken "("⟩ ∧
    (ParseError.Cause.unexpectedToken "(").IsSyntactic ∧
    (∀ tokens' : List Token, tokens'.take 5 = tokens.take 5 →
      ofTokens tokens' = .error ⟨5, .unexpectedToken "("⟩) ∧
    ∃ text' rest e, Token.scan text' = .ok (tokens.take 4 ++ rest) ∧
      ofTokens (tokens.take 4 ++ rest) = .ok e := by
  have hscan : Token.scan "f(x)(y)" = .ok
      [⟨.identifier "f", "f", 1⟩, ⟨.leftParen, "(", 2⟩, ⟨.identifier "x", "x", 3⟩,
        ⟨.rightParen, ")", 4⟩, ⟨.leftParen, "(", 5⟩, ⟨.identifier "y", "y", 6⟩,
        ⟨.rightParen, ")", 7⟩, ⟨.endOfText, "", 8⟩] := by
    cbv
  refine ⟨_, hscan, rfl, trivial, ?_⟩
  rcases error_earliest hscan rfl trivial with ⟨k, t, -, -, honly, hsame, hcompletion⟩
  have hk : 4 = k := honly 4 _ rfl rfl
  subst hk
  exact ⟨hsame, hcompletion (by decide)⟩

end Expr

end ZPlane
