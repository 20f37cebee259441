import ZPlane.Expr.Parse
import ZPlane.Proofs.Outcome

/-!
# What a Token Can Do

`Parser.step` says what one token does to the state of the parser by cases on the
state. Every property of the parser is a property of its steps, and none of them
should have to open that definition again. `Move` is the same thing as a relation,
one constructor for each thing that a token can do, with everything that has to
hold for it. `step_eq_ok_iff` ties the two together.

A token after an operand first finishes the operations that bind tightly enough.
`finish` is a recursion over the stack with an equation for each kind of frame,
and what it leaves on top of the stack is all that the moves need to know of it.

## Main definitions

* `Parser.operandLevel`: What may be read on top of a stack.
* `Parser.Mode.Awaits`: An operand is to come next.
* `Parser.Move`: What one token can do to the state.

## Theorems

* `Parser.step_eq_ok_iff`: A step succeeds exactly when it is a move.
* `Parser.Move.of_endOfText`: The end of the text ends the run.
* `Parser.run_append`: A list of tokens is run part by part.
* `Parser.run_invariant`: What every move keeps, a run keeps too.
* `Parser.finish_assignment_stack`: Finishing everything stops at a group or at
  the bottom of the stack.
-/

namespace ZPlane

namespace Parser

variable {limits : Limits}

@[simp]
theorem run_cons (s : State) (t : Token) (ts : List Token) :
    run limits s (t :: ts) = (step limits s t >>= fun s' => run limits s' ts) := rfl

theorem run_append (s : State) (ts us : List Token) :
    run limits s (ts ++ us) = (run limits s ts >>= fun s' => run limits s' us) :=
  List.foldlM_append

@[simp]
theorem finish_nil (b : Binding) (n : Nat) (e : Expr) :
    finish limits b [] n e = .ok ([], n, e) := rfl

@[simp]
theorem finish_group (b : Binding) (callee : Option Expr) (column : Nat) (rest : List Frame)
    (n : Nat) (e : Expr) :
    finish limits b (.group callee column :: rest) n e = .ok (.group callee column :: rest, n, e) :=
  rfl

/-- An operation that binds too loosely stays open. -/
theorem finish_of_lt {b c : Binding} (h : c.level < b.level) (l : Expr) (op : Operator)
    (column : Nat) (rest : List Frame) (n : Nat) (e : Expr) :
    finish limits b (.operation l op c column :: rest) n e =
      .ok (.operation l op c column :: rest, n, e) := by
  rw [finish, if_neg (by omega)]

/-- An operation that binds tightly enough is counted and finished. -/
theorem finish_of_le {b c : Binding} (h : b.level ≤ c.level) (l : Expr) (op : Operator)
    (column : Nat) (rest : List Frame) (n : Nat) (e : Expr) :
    finish limits b (.operation l op c column :: rest) n e =
      (countOperation limits column n >>= fun n' =>
        finish limits b rest n' (.operation op l e)) := by
  rw [finish, if_pos h]

theorem countOperation_of_lt {n : Nat} (h : n < limits.operations) (column : Nat) :
    countOperation limits column n = .ok (n + 1) := by
  rw [countOperation, if_pos h]

theorem countOperation_eq_ok {column n n' : Nat} (h : countOperation limits column n = .ok n') :
    n < limits.operations ∧ n' = n + 1 := by
  unfold countOperation at h
  split at h
  · next hlt => exact ⟨hlt, (Except.ok.inj h).symm⟩
  · cases h

/-- Finishing everything stops at a group or at the bottom of the stack. -/
theorem finish_assignment_stack {S S' : List Frame} {n n' : Nat} {e e' : Expr}
    (h : finish limits .assignment S n e = .ok (S', n', e')) :
    S' = [] ∨ ∃ callee column rest, S' = .group callee column :: rest := by
  induction S generalizing n e with
  | nil =>
      rw [finish_nil] at h
      cases h
      exact .inl rfl
  | cons frame rest ih =>
      cases frame with
      | operation l op c column =>
          rw [finish_of_le (Nat.zero_le _)] at h
          rcases ok_and_ok_of_bind h with ⟨m, _, hrest⟩
          exact ih hrest
      | group callee column =>
          rw [finish_group] at h
          cases h
          exact .inr ⟨callee, column, rest, rfl⟩

/-- The level of the loosest rule that an operand on top of the stack may
    belong to. -/
def operandLevel : List Frame → Nat
  | .operation _ _ b _ :: _ => b.level + 1
  | _ => 1

/-- Nothing is finished where the operand on top is loose enough. -/
theorem finish_of_operandLevel_le {b : Binding} {S : List Frame} (h : operandLevel S ≤ b.level)
    (n : Nat) (e : Expr) : finish limits b S n e = .ok (S, n, e) := by
  cases S with
  | nil => exact finish_nil b n e
  | cons frame rest =>
      cases frame with
      | operation l op c column => exact finish_of_lt h l op column rest n e
      | group callee column => exact finish_group b callee column rest n e

@[simp]
theorem depth_nil : depth [] = 0 := rfl

@[simp]
theorem depth_operation (l : Expr) (op : Operator) (b : Binding) (column : Nat)
    (S : List Frame) : depth (.operation l op b column :: S) = depth S := by
  simp [depth]

@[simp]
theorem depth_group (callee : Option Expr) (column : Nat) (S : List Frame) :
    depth (.group callee column :: S) = depth S + 1 := by
  simp [depth]

/-- The modes in which an operand is to come next. -/
def Mode.Awaits (m : Mode) : Prop :=
  m = .signed ∨ m = .operand

/-- What one token can do to the state. -/
inductive Move (limits : Limits) : State → Token → State → Prop
  /-- A number or a name is read as an operand. -/
  | atom {S : List Frame} {n : Nat} {m : Mode} {t : Token} {e : Expr} {c : Bool} :
      m.Awaits → atom? t.kind = some (e, c) → Move limits ⟨S, n, m⟩ t ⟨S, n, .read e c⟩
  /-- A plus sign before a sum is dropped. -/
  | plus {S : List Frame} {n : Nat} {t : Token} :
      t.kind = .plus → Move limits ⟨S, n, .signed⟩ t ⟨S, n, .operand⟩
  /-- A minus sign before a sum subtracts the first term from zero. -/
  | minus {S : List Frame} {n : Nat} {t : Token} :
      t.kind = .minus →
      Move limits ⟨S, n, .signed⟩ t
        ⟨.operation (.literal .zero) (.arith .sub) .sum t.column :: S, n, .operand⟩
  /-- A group starts where an operand is to come. -/
  | group {S : List Frame} {n : Nat} {m : Mode} {t : Token} :
      m.Awaits → t.kind = .leftParen → depth S < limits.nesting →
      Move limits ⟨S, n, m⟩ t ⟨.group none t.column :: S, n, .signed⟩
  /-- An operator takes what was finished as its left operand. -/
  | binary {S S' : List Frame} {n n' : Nat} {e l : Expr} {c : Bool} {t : Token} {a : Arith}
      {b : Binding} :
      binary? t.kind = some (a, b) → finish limits b S n e = .ok (S', n', l) →
      Move limits ⟨S, n, .read e c⟩ t
        ⟨.operation l (.arith a) b t.column :: S', n', .operand⟩
  /-- A number or a name after an operand is multiplied with it. -/
  | juxtaposed {S S' : List Frame} {n n' : Nat} {e l f : Expr} {c d : Bool} {t : Token} :
      atom? t.kind = some (f, d) → finish limits .juxtaposition S n e = .ok (S', n', l) →
      Move limits ⟨S, n, .read e c⟩ t
        ⟨.operation l (.arith .mul) .juxtaposition t.column :: S', n', .read f d⟩
  /-- An argument starts after a name or a group. -/
  | argument {S : List Frame} {n : Nat} {e : Expr} {t : Token} :
      t.kind = .leftParen → depth S < limits.nesting →
      Move limits ⟨S, n, .read e true⟩ t ⟨.group (some e) t.column :: S, n, .signed⟩
  /-- A group ends. -/
  | close {S S' : List Frame} {n n' column : Nat} {e e' : Expr} {c : Bool} {t : Token} :
      t.kind = .rightParen →
      finish limits .assignment S n e = .ok (.group none column :: S', n', e') →
      Move limits ⟨S, n, .read e c⟩ t ⟨S', n', .read e' true⟩
  /-- An argument ends, and with it a call. -/
  | closeCall {S S' : List Frame} {n n' column : Nat} {e e' f : Expr} {c : Bool} {t : Token} :
      t.kind = .rightParen →
      finish limits .assignment S n e = .ok (.group (some f) column :: S', n', e') →
      n' < limits.operations →
      Move limits ⟨S, n, .read e c⟩ t ⟨S', n' + 1, .read (.operation .call f e') false⟩
  /-- The left side of an assignment ends. -/
  | assign {S : List Frame} {n n' : Nat} {e : Expr} {c : Bool} {t : Token} {x : String} :
      t.kind = .equal → finish limits .assignment S n e = .ok ([], n', .name x) →
      Move limits ⟨S, n, .read e c⟩ t
        ⟨[.operation (.name x) .assign .assignment t.column], n', .signed⟩
  /-- The text ends. -/
  | stop {S : List Frame} {n n' : Nat} {e e' : Expr} {c : Bool} {t : Token} :
      t.kind = .endOfText → finish limits .assignment S n e = .ok ([], n', e') →
      Move limits ⟨S, n, .read e c⟩ t ⟨[], n', .ended e'⟩
  /-- Nothing is read after the end. -/
  | ended {S : List Frame} {n : Nat} {e : Expr} {t : Token} :
      Move limits ⟨S, n, .ended e⟩ t ⟨S, n, .ended e⟩

theorem binary?_eq_none_of_atom? {k : Token.Kind} {p : Expr × Bool} (h : atom? k = some p) :
    binary? k = none := by
  cases k <;> simp_all [atom?, binary?]

/-- Where an operand is to come, a sign of a sum apart, both modes read a token in
    the same way. -/
theorem step_of_awaits {S : List Frame} {n : Nat} {m : Mode} {t : Token} (hm : m.Awaits)
    (hplus : t.kind ≠ .plus) (hminus : t.kind ≠ .minus) :
    step limits ⟨S, n, m⟩ t = startOperand limits ⟨S, n, m⟩ t := by
  rcases hm with rfl | rfl
  · change startSum limits _ t = _
    unfold startSum
    split
    · next h => exact absurd h hplus
    · next h => exact absurd h hminus
    · rfl
  · rfl

theorem step_of_move {s s' : State} {t : Token} (h : Move limits s t s') :
    step limits s t = .ok s' := by
  cases h with
  | atom hm hatom =>
      -- An atom is no sign, so it makes no difference whether one could stand here.
      rw [step_of_awaits hm]
      · simp only [startOperand, hatom]
      · intro hk; rw [hk] at hatom; cases hatom
      · intro hk; rw [hk] at hatom; cases hatom
  | plus hk => simp only [step, startSum, hk]
  | minus hk => simp only [step, startSum, hk]
  | group hm hk hdepth =>
      rw [step_of_awaits hm (by simp [hk]) (by simp [hk])]
      simp only [startOperand, hk, atom?, openGroup, if_pos hdepth]
  | binary hop hfin =>
      simp only [step, afterOperand, hop, openOperation, hfin]
      rfl
  | juxtaposed hatom hfin =>
      simp only [step, afterOperand, binary?_eq_none_of_atom? hatom, hatom, openOperation, hfin]
      rfl
  | argument hk hdepth =>
      simp only [step, afterOperand, hk, binary?, atom?, openGroup, if_pos hdepth]
  | close hk hfin =>
      simp only [step, afterOperand, hk, binary?, atom?, endSum, hfin]
      rfl
  | closeCall hk hfin hlt =>
      simp only [step, afterOperand, hk, binary?, atom?, endSum, hfin]
      simp only [bind, Except.bind, closeGroup, countOperation_of_lt hlt]
      rfl
  | assign hk hfin =>
      simp only [step, afterOperand, hk, binary?, atom?, endSum, hfin]
      rfl
  | stop hk hfin =>
      simp only [step, afterOperand, hk, binary?, atom?, endSum, hfin]
      rfl
  | ended => rfl

theorem move_of_startOperand {S : List Frame} {n : Nat} {m : Mode} {t : Token} {s' : State}
    (hm : m.Awaits) (h : startOperand limits ⟨S, n, m⟩ t = .ok s') :
    Move limits ⟨S, n, m⟩ t s' := by
  unfold startOperand at h
  split at h
  · next e c hatom =>
      cases h
      exact .atom hm hatom
  · split at h
    · next hk =>
        unfold openGroup at h
        split at h
        · next hdepth =>
            cases h
            exact .group hm hk hdepth
        · cases h
    · cases h
    · cases h

theorem move_of_startSum {S : List Frame} {n : Nat} {t : Token} {s' : State}
    (h : startSum limits ⟨S, n, .signed⟩ t = .ok s') : Move limits ⟨S, n, .signed⟩ t s' := by
  unfold startSum at h
  split at h
  · next hk =>
      cases h
      exact .plus hk
  · next hk =>
      cases h
      exact .minus hk
  · exact move_of_startOperand (.inl rfl) h

theorem move_of_endSum {S : List Frame} {n : Nat} {e : Expr} {c : Bool} {t : Token} {s' : State}
    (h : endSum limits ⟨S, n, .read e c⟩ e t = .ok s') : Move limits ⟨S, n, .read e c⟩ t s' := by
  rcases ok_and_ok_of_bind h with ⟨⟨S', n', e'⟩, hfin, hrest⟩
  dsimp only at hfin hrest
  rcases finish_assignment_stack hfin with rfl | ⟨callee, column, rest, rfl⟩
  · -- At the bottom of the stack the sum is a target, or the text ends.
    dsimp only at hrest
    split at hrest
    · next hk =>
        split at hrest
        · cases hrest
          exact .assign hk hfin
        · cases hrest
    · next hk =>
        cases hrest
        exact .stop hk hfin
    · cases hrest
  · -- Inside of a group only its parenthesis can follow.
    dsimp only at hrest
    split at hrest
    · next hk =>
        cases callee with
        | none =>
            cases hrest
            exact .close hk hfin
        | some f =>
            rcases ok_and_ok_of_bind hrest with ⟨m, hcount, hstate⟩
            rcases countOperation_eq_ok hcount with ⟨hlt, rfl⟩
            cases hstate
            exact .closeCall hk hfin hlt
    · cases hrest

theorem move_of_afterOperand {S : List Frame} {n : Nat} {e : Expr} {c : Bool} {t : Token}
    {s' : State} (h : afterOperand limits ⟨S, n, .read e c⟩ e c t = .ok s') :
    Move limits ⟨S, n, .read e c⟩ t s' := by
  unfold afterOperand at h
  split at h
  · next a b hop =>
      rcases ok_and_ok_of_bind h with ⟨⟨S', n', l⟩, hfin, hstate⟩
      cases hstate
      exact .binary hop hfin
  · split at h
    · next f d hatom =>
        rcases ok_and_ok_of_bind h with ⟨⟨S', n', l⟩, hfin, hstate⟩
        cases hstate
        exact .juxtaposed hatom hfin
    · split at h
      · next hk =>
          unfold openGroup at h
          split at h
          · next hdepth =>
              cases h
              exact .argument hk hdepth
          · cases h
      · exact move_of_endSum h

theorem move_of_step {s s' : State} {t : Token} (h : step limits s t = .ok s') :
    Move limits s t s' := by
  rcases s with ⟨S, n, m⟩
  cases m with
  | signed => exact move_of_startSum h
  | operand => exact move_of_startOperand (.inr rfl) h
  | read e c => exact move_of_afterOperand h
  | ended e =>
      cases h
      exact .ended

/-- A step succeeds exactly when it is a move. -/
theorem step_eq_ok_iff {s s' : State} {t : Token} :
    step limits s t = .ok s' ↔ Move limits s t s' :=
  ⟨move_of_step, step_of_move⟩

/-- At the end of the text everything is finished down to the bottom of the stack,
    unless it had ended before. -/
theorem Move.of_endOfText {s s' : State} {t : Token} (h : Move limits s t s')
    (ht : t.kind = .endOfText) :
    (∃ e c n' e', s.mode = .read e c ∧
      finish limits .assignment s.stack s.operations e = .ok ([], n', e') ∧
      s' = ⟨[], n', .ended e'⟩) ∨ ∃ e, s.mode = .ended e ∧ s' = s := by
  -- Every other move needs a token of another kind.
  cases h with
  | atom _ hatom => rw [ht] at hatom; cases hatom
  | plus hk => rw [ht] at hk; cases hk
  | minus hk => rw [ht] at hk; cases hk
  | group _ hk _ => rw [ht] at hk; cases hk
  | binary hop _ => rw [ht] at hop; cases hop
  | juxtaposed hatom _ => rw [ht] at hatom; cases hatom
  | argument hk _ => rw [ht] at hk; cases hk
  | close hk _ => rw [ht] at hk; cases hk
  | closeCall hk _ _ => rw [ht] at hk; cases hk
  | assign hk _ => rw [ht] at hk; cases hk
  | stop _ hfin => exact .inl ⟨_, _, _, _, rfl, hfin, rfl⟩
  | ended => exact .inr ⟨_, rfl, rfl⟩

theorem run_cons_of_move {s s' : State} {t : Token} (h : Move limits s t s') (ts : List Token) :
    run limits s (t :: ts) = run limits s' ts := by
  rw [run_cons, step_eq_ok_iff.mpr h]
  rfl

theorem run_append_of_run {s s' : State} {ts : List Token} (h : run limits s ts = .ok s')
    (us : List Token) : run limits s (ts ++ us) = run limits s' us := by
  rw [run_append, h]
  rfl

/-- What every move keeps, given the tokens read so far, a run keeps too. -/
theorem run_invariant {P : List Token → State → Prop} {s s' : State} {ts : List Token}
    (h : run limits s ts = .ok s') (hstart : P [] s)
    (hmove : ∀ {read : List Token} {t : Token} {s₁ s₂ : State}, t ∈ ts → Move limits s₁ t s₂ →
      P read s₁ → P (read ++ [t]) s₂) : P ts s' := by
  -- The tokens are split into those that were read and those that are left.
  have hleft : ∀ (us read : List Token) (s₁ : State), ts = read ++ us →
      run limits s₁ us = .ok s' → P read s₁ → P ts s' := by
    intro us
    induction us with
    | nil =>
        intro read s₁ hts hrun hread
        cases hrun
        rw [hts, List.append_nil]
        exact hread
    | cons t us ih =>
        intro read s₁ hts hrun hread
        rcases ok_and_ok_of_bind hrun with ⟨s₂, hstep, hrest⟩
        have ht : t ∈ ts := by
          rw [hts]
          exact List.mem_append_right _ List.mem_cons_self
        rw [List.append_cons] at hts
        exact ih (read ++ [t]) s₂ hts hrest (hmove ht (step_eq_ok_iff.mp hstep) hread)
  exact hleft ts [] s rfl h hstart

end Parser

end ZPlane
