import ZPlane.Proofs.Grammar
import ZPlane.Proofs.Parser.Move

/-!
# Limits of the Parser

A limit only ever turns a result into a refusal. `agree_run` compares one run
under two limits: the results are the same, unless one of the limits was exceeded.
What the parser does within its limits can thus be found out under limits that are
as large as one likes.

The other half is that the limits count what they are meant to count. The open
groups of a state are the open parentheses of the text that it was reached by, so a
run that succeeds has read a text in which never too many were open.

## Main definitions

* `Parser.Exceeds`: A result that reports an exceeded limit.
* `Parser.Agree`: Two results that differ only in an exceeded limit.
* `Parser.State.Within`: A state keeps the limits.

## Theorems

* `Parser.agree_run`: Limits change a run only by being exceeded.
* `Parser.run_eq_or_exceeds`: A run that succeeds under some limits does the same under
  others, or exceeds them.
* `Parser.Move.depth_eq`: Open groups are open parentheses.
* `Parser.within_of_run`: A run keeps the limits, and so does its text.
* `Parser.depth_of_run`: Open groups are what the text leaves open.
-/

namespace ZPlane

namespace Parser

open Grammar

/-- A limit was exceeded. -/
def Exceeds {α : Type} (r : Except ParseError α) : Prop :=
  ∃ e, r = .error e ∧ (e.cause = .nestingTooDeep ∨ e.cause = .expressionTooLarge)

/-- Two results of the same computation under different limits: they are equal,
    unless one of the limits was exceeded. -/
def Agree {α : Type} (r r' : Except ParseError α) : Prop :=
  r = r' ∨ Exceeds r ∨ Exceeds r'

theorem Exceeds.bind {α β : Type} {r : Except ParseError α} (h : Exceeds r)
    (f : α → Except ParseError β) : Exceeds (r >>= f) := by
  rcases h with ⟨e, rfl, hcause⟩
  exact ⟨e, rfl, hcause⟩

theorem not_exceeds_ok {α : Type} (a : α) : ¬ Exceeds (Except.ok a) := by
  rintro ⟨e, h, _⟩
  cases h

theorem Agree.bind {α β : Type} {r r' : Except ParseError α} {f f' : α → Except ParseError β}
    (h : Agree r r') (hf : ∀ a, Agree (f a) (f' a)) : Agree (r >>= f) (r' >>= f') := by
  rcases h with rfl | h | h
  · cases r with
    | error e => exact .inl rfl
    | ok a => exact hf a
  -- An exceeded limit ends a computation there and then.
  · exact .inr (.inl (h.bind f))
  · exact .inr (.inr (h.bind f'))

variable (limits limits' : Limits)

theorem agree_countOperation (column n : Nat) :
    Agree (countOperation limits column n) (countOperation limits' column n) := by
  unfold countOperation
  split
  · split
    · exact .inl rfl
    · exact .inr (.inr ⟨_, rfl, .inr rfl⟩)
  · exact .inr (.inl ⟨_, rfl, .inr rfl⟩)

theorem agree_openGroup (callee : Option Expr) (column : Nat) (S : List Frame) (n : Nat) :
    Agree (openGroup limits callee column S n) (openGroup limits' callee column S n) := by
  unfold openGroup
  split
  · split
    · exact .inl rfl
    · exact .inr (.inr ⟨_, rfl, .inl rfl⟩)
  · exact .inr (.inl ⟨_, rfl, .inl rfl⟩)

theorem agree_closeGroup (callee : Option Expr) (column : Nat) (S : List Frame) (n : Nat)
    (e : Expr) :
    Agree (closeGroup limits callee column S n e) (closeGroup limits' callee column S n e) := by
  cases callee with
  | none => exact .inl rfl
  | some f => exact (agree_countOperation limits limits' column n).bind fun _ => .inl rfl

theorem agree_finish (b : Binding) (S : List Frame) (n : Nat) (e : Expr) :
    Agree (finish limits b S n e) (finish limits' b S n e) := by
  induction S generalizing n e with
  | nil => exact .inl rfl
  | cons frame rest ih =>
      cases frame with
      | group callee column => exact .inl rfl
      | operation l op c column =>
          by_cases hc : b.level ≤ c.level
          · rw [finish_of_le hc, finish_of_le hc]
            exact (agree_countOperation limits limits' column n).bind fun m => ih m _
          · rw [finish_of_lt (by omega), finish_of_lt (by omega)]
            exact .inl rfl

theorem agree_startOperand (s : State) (t : Token) :
    Agree (startOperand limits s t) (startOperand limits' s t) := by
  unfold startOperand
  split
  · exact .inl rfl
  · split
    · exact agree_openGroup limits limits' none t.column s.stack s.operations
    · exact .inl rfl
    · exact .inl rfl

theorem agree_endSum (s : State) (e : Expr) (t : Token) :
    Agree (endSum limits s e t) (endSum limits' s e t) := by
  refine (agree_finish limits limits' .assignment s.stack s.operations e).bind ?_
  rintro ⟨S, n, e⟩
  cases S with
  | nil => exact .inl rfl
  | cons frame rest =>
      cases frame with
      | operation l op b column => exact .inl rfl
      | group callee column =>
          dsimp only
          split
          · exact agree_closeGroup limits limits' callee column rest n e
          · exact .inl rfl

theorem agree_afterOperand (s : State) (e : Expr) (c : Bool) (t : Token) :
    Agree (afterOperand limits s e c t) (afterOperand limits' s e c t) := by
  unfold afterOperand
  split
  · exact (agree_finish limits limits' _ s.stack s.operations e).bind fun _ => .inl rfl
  · split
    · exact (agree_finish limits limits' _ s.stack s.operations e).bind fun _ => .inl rfl
    · split
      · exact agree_openGroup limits limits' (some e) t.column s.stack s.operations
      · exact agree_endSum limits limits' s e t

theorem agree_step (s : State) (t : Token) : Agree (step limits s t) (step limits' s t) := by
  unfold step
  split
  · unfold startSum
    split
    · exact .inl rfl
    · exact .inl rfl
    · exact agree_startOperand limits limits' s t
  · exact agree_startOperand limits limits' s t
  · exact agree_afterOperand limits limits' s _ _ t
  · exact .inl rfl

/-- Limits change a run only by being exceeded. -/
theorem agree_run (s : State) (ts : List Token) :
    Agree (run limits s ts) (run limits' s ts) := by
  induction ts generalizing s with
  | nil => exact .inl rfl
  | cons t ts ih => exact (agree_step limits limits' s t).bind ih

variable {limits limits'}

/-- A run that succeeds under some limits does the same under others, or exceeds them. -/
theorem run_eq_or_exceeds {s s' : State} {ts : List Token} (h : run limits' s ts = .ok s') :
    run limits s ts = .ok s' ∨ Exceeds (run limits s ts) := by
  rcases agree_run limits limits' s ts with heq | hexceeds | hexceeds
  · exact .inl (heq.trans h)
  · exact .inr hexceeds
  · rw [h] at hexceeds
    exact absurd hexceeds (not_exceeds_ok _)

/-- Runs that succeed have the same result, whatever the limits were. -/
theorem run_ok_unique {s s₁ s₂ : State} {ts : List Token} (h₁ : run limits s ts = .ok s₁)
    (h₂ : run limits' s ts = .ok s₂) : s₁ = s₂ := by
  rcases run_eq_or_exceeds h₂ with heq | hexceeds
  · exact Except.ok.inj (h₁.symm.trans heq)
  · rw [h₁] at hexceeds
    exact absurd hexceeds (not_exceeds_ok _)

/-- Finishing operations leaves the groups open and counts up to the limit. -/
theorem finish_within {b : Binding} {S S' : List Frame} {n n' : Nat} {e e' : Expr}
    (h : finish limits b S n e = .ok (S', n', e')) (hn : n ≤ limits.operations) :
    depth S' = depth S ∧ n' ≤ limits.operations := by
  induction S generalizing n e with
  | nil =>
      rw [finish_nil] at h
      cases h
      exact ⟨rfl, hn⟩
  | cons frame rest ih =>
      cases frame with
      | group callee column =>
          rw [finish_group] at h
          cases h
          exact ⟨rfl, hn⟩
      | operation l op c column =>
          by_cases hc : b.level ≤ c.level
          · rw [finish_of_le hc] at h
            rcases ok_and_ok_of_bind h with ⟨m, hcount, hrest⟩
            rcases countOperation_eq_ok hcount with ⟨hlt, rfl⟩
            exact ih hrest hlt
          · rw [finish_of_lt (by omega)] at h
            cases h
            exact ⟨rfl, hn⟩

/-- The state keeps the limits. -/
structure State.Within (s : State) (limits : Limits) : Prop where
  nesting : depth s.stack ≤ limits.nesting
  operations : s.operations ≤ limits.operations

/-- The text goes on. -/
def State.Running (s : State) : Prop :=
  ∀ e, s.mode ≠ .ended e

theorem openAfter_of_atom? {k : Token.Kind} {p : Expr × Bool} (h : atom? k = some p) (d : Nat) :
    openAfter d k = d := by
  cases k <;> simp_all [atom?, openAfter]

theorem openAfter_of_binary? {k : Token.Kind} {p : Arith × Binding} (h : binary? k = some p)
    (d : Nat) : openAfter d k = d := by
  cases k <;> simp_all [binary?, openAfter]

/-- A move keeps the limits. -/
theorem Move.within {s s' : State} {t : Token} (h : Move limits s t s') (hs : s.Within limits) :
    s'.Within limits := by
  rcases hs with ⟨hdepth, hoperations⟩
  cases h with
  | atom _ _ => exact ⟨hdepth, hoperations⟩
  | plus _ => exact ⟨hdepth, hoperations⟩
  | minus _ => exact ⟨by simpa using hdepth, hoperations⟩
  | group _ _ hlt => exact ⟨by rw [depth_group]; exact hlt, hoperations⟩
  | binary _ hfin =>
      rcases finish_within hfin hoperations with ⟨hS, hn⟩
      exact ⟨by simpa [hS] using hdepth, hn⟩
  | juxtaposed _ hfin =>
      rcases finish_within hfin hoperations with ⟨hS, hn⟩
      exact ⟨by simpa [hS] using hdepth, hn⟩
  | argument _ hlt => exact ⟨by rw [depth_group]; exact hlt, hoperations⟩
  | close _ hfin =>
      rcases finish_within hfin hoperations with ⟨hS, hn⟩
      rw [depth_group] at hS
      exact ⟨by dsimp only at hdepth ⊢; omega, hn⟩
  | closeCall _ hfin hlt =>
      rcases finish_within hfin hoperations with ⟨hS, _⟩
      rw [depth_group] at hS
      exact ⟨by dsimp only at hdepth ⊢; omega, hlt⟩
  | assign _ hfin =>
      rcases finish_within hfin hoperations with ⟨_, hn⟩
      exact ⟨by simp, hn⟩
  | stop _ hfin =>
      rcases finish_within hfin hoperations with ⟨_, hn⟩
      exact ⟨by simp, hn⟩
  | ended => exact ⟨hdepth, hoperations⟩

/-- Only the end of the text ends a run. -/
theorem Move.running {s s' : State} {t : Token} (h : Move limits s t s') (hrunning : s.Running)
    (ht : t.kind ≠ .endOfText) : s'.Running := by
  cases h with
  | stop hk _ => exact absurd hk ht
  | ended => exact hrunning
  | _ => exact nofun

/-- The open groups of the state are the open parentheses of the text. -/
theorem Move.depth_eq {s s' : State} {t : Token} (h : Move limits s t s')
    (hs : s.Within limits) (hrunning : s.Running) (ht : t.kind ≠ .endOfText) :
    depth s'.stack = openAfter (depth s.stack) t.kind := by
  have hoperations := hs.operations
  cases h with
  | atom _ hatom => exact (openAfter_of_atom? hatom _).symm
  | plus hk => simp only [hk, openAfter]
  | minus hk => simp only [hk, openAfter, depth_operation]
  | group _ hk _ => simp only [hk, openAfter, depth_group]
  -- What is finished below a new operation are operations, so groups stay as they are.
  | binary hop hfin =>
      rcases finish_within hfin hoperations with ⟨hS, _⟩
      rw [depth_operation, hS, openAfter_of_binary? hop]
  | juxtaposed hatom hfin =>
      rcases finish_within hfin hoperations with ⟨hS, _⟩
      rw [depth_operation, hS, openAfter_of_atom? hatom]
  | argument hk _ => simp only [hk, openAfter, depth_group]
  | close hk hfin =>
      rcases finish_within hfin hoperations with ⟨hS, _⟩
      rw [hk, openAfter, ← hS, depth_group, Nat.add_sub_cancel]
  | closeCall hk hfin _ =>
      rcases finish_within hfin hoperations with ⟨hS, _⟩
      rw [hk, openAfter, ← hS, depth_group, Nat.add_sub_cancel]
  | assign hk hfin =>
      rcases finish_within hfin hoperations with ⟨hS, _⟩
      simp only [hk, openAfter, depth_operation, ← hS]
  | stop hk _ => exact absurd hk ht
  | ended => exact absurd rfl (hrunning _)

/-- A run keeps the limits, and the text that it read kept them too. -/
theorem within_of_run {s s' : State} {ts : List Token} (h : run limits s ts = .ok s')
    (hs : s.Within limits) (hrunning : s.Running) (hts : ∀ t ∈ ts, t.kind ≠ .endOfText) :
    s'.Within limits ∧ NestedWithin limits.nesting (depth s.stack) (ts.map Token.kind) := by
  induction ts generalizing s with
  | nil =>
      cases h
      exact ⟨hs, nestedWithin_nil_iff.mpr hs.nesting⟩
  | cons t ts ih =>
      rcases ok_and_ok_of_bind h with ⟨s₁, hstep, hrest⟩
      have hmove := step_eq_ok_iff.mp hstep
      have ht := hts t List.mem_cons_self
      rcases ih hrest (hmove.within hs) (hmove.running hrunning ht)
        fun u hu => hts u (List.mem_cons_of_mem t hu) with ⟨hs', hnest⟩
      rw [hmove.depth_eq hs hrunning ht] at hnest
      exact ⟨hs', nestedWithin_cons_iff.mpr ⟨hs.nesting, hnest⟩⟩

/-- A run goes on as long as the text does. -/
theorem running_of_run {s s' : State} {ts : List Token} (h : run limits s ts = .ok s')
    (hrunning : s.Running) (hts : ∀ t ∈ ts, t.kind ≠ .endOfText) : s'.Running :=
  run_invariant (P := fun _ s₁ => s₁.Running) h hrunning
    fun ht hmove hread => hmove.running hread (hts _ ht)

/-- The open groups after a run are the parentheses that its text leaves open. -/
theorem depth_of_run {s s' : State} {ts : List Token} (h : run limits s ts = .ok s')
    (hs : s.Within limits) (hrunning : s.Running) (hts : ∀ t ∈ ts, t.kind ≠ .endOfText) :
    depth s'.stack = unclosedFrom (depth s.stack) (ts.map Token.kind) := by
  have hinvariant : s'.Within limits ∧ s'.Running ∧
      depth s'.stack = unclosedFrom (depth s.stack) (ts.map Token.kind) := by
    refine run_invariant (P := fun read s₁ => s₁.Within limits ∧ s₁.Running ∧
      depth s₁.stack = unclosedFrom (depth s.stack) (read.map Token.kind)) h ⟨hs, hrunning, rfl⟩ ?_
    rintro read t s₁ s₂ ht hmove ⟨hwithin, hrunning, hdepth⟩
    refine ⟨hmove.within hwithin, hmove.running hrunning (hts t ht), ?_⟩
    rw [hmove.depth_eq hwithin hrunning (hts t ht), hdepth, List.map_append, unclosedFrom_append]
    rfl
  exact hinvariant.2.2

end Parser

end ZPlane
