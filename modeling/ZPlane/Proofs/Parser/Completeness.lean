import ZPlane.Proofs.Grammar
import ZPlane.Proofs.Parser.Move

/-!
# Completeness of the Parser

The parser reads whatever the grammar derives, as long as it stays within the
limits.

The argument follows the derivation. An operand of a rule is read on top of any
stack whose innermost operation binds more loosely than the rule, because nothing
below it is touched meanwhile. At its last token the operand is not yet one tree:
its own operations may still be open, and it is the token after it that finishes
them. What can be said of the state is therefore said about finishing.
`ReadsTo` states that whoever finishes operations down to the rule of the operand
finds the stack from before and the tree of the operand, with its operations
counted.

Each rule of the grammar has a lemma of its own, and the induction only puts them
together. The induction is over words of sums; an assignment is two of them in a
row.

## Main definitions

* `Parser.Mode.Starts`: An operand of a rule may start in a mode.
* `Parser.ReadsTo`: The state after an operand of a rule.
* `Parser.Runs`: The parser reads a word of a rule wherever it may stand.

## Theorems

* `Parser.runs_of_derives`: Every derived word of a sum is read.
* `Parser.run_of_derives`: Every derived word is read to its end.
-/

namespace ZPlane

namespace Parser

open Grammar

variable {limits : Limits}

theorem joins_binary? {rule : Rule} {k : Token.Kind} {a : Arith} (h : Joins rule k a) :
    ∃ b, binary? k = some (a, b) ∧ b.level = rule.level := by
  cases h with
  | plus => exact ⟨.sum, rfl, rfl⟩
  | minus => exact ⟨.sum, rfl, rfl⟩
  | star => exact ⟨.product, rfl, rfl⟩
  | slash => exact ⟨.product, rfl, rfl⟩
  | caret => exact ⟨.power, rfl, rfl⟩

theorem isAtom_atom? {k : Token.Kind} (h : IsAtom k) :
    ∃ e c, atom? k = some (e, c) := by
  cases k with
  | number x => exact ⟨_, _, rfl⟩
  | identifier x => exact ⟨_, _, rfl⟩
  | _ => exact h.elim

/-- An operand of a rule may start in the mode. Only a sum may start with a
    sign. -/
def Mode.Starts (m : Mode) (rule : Rule) : Prop :=
  m = .signed ∨ (m = .operand ∧ 2 ≤ rule.level)

/-- The state after an operand `e` of a rule on top of the stack `S`: whatever
    finishes operations down to that rule arrives at `S` and `e`, with `n`
    operations counted. A callee is in the state as it is. -/
structure ReadsTo (limits : Limits) (rule : Rule) (S : List Frame) (n : Nat) (e : Expr)
    (s : State) : Prop where
  finishes : ∃ e' c, s.mode = .read e' c ∧ ∀ b : Binding, b.level ≤ rule.level →
    finish limits b s.stack s.operations e' = finish limits b S n e
  callee : rule = .callee → s = ⟨S, n, .read e true⟩

theorem readsTo_self (rule : Rule) (S : List Frame) (n : Nat) (e : Expr) (c : Bool)
    (h : rule = .callee → c = true) : ReadsTo limits rule S n e ⟨S, n, .read e c⟩ :=
  ⟨⟨e, c, rfl, fun _ _ => rfl⟩, fun hr => by rw [h hr]⟩

/-- The parser reads every spelling of a word of a rule, wherever an operand of
    that rule may start and there is room for it within the limits. -/
def Runs (limits : Limits) (rule : Rule) (ks : List Token.Kind) (e : Expr) : Prop :=
  ∀ (S : List Frame) (n : Nat) (m : Mode) (ts : List Token), ts.map Token.kind = ks →
    m.Starts rule → operandLevel S ≤ rule.level → NestedWithin limits.nesting (depth S) ks →
    n + e.size ≤ limits.operations →
    ∃ s, run limits ⟨S, n, m⟩ ts = .ok s ∧ ReadsTo limits rule S (n + e.size) e s

theorem Mode.Starts.awaits {m : Mode} {rule : Rule} (h : m.Starts rule) : m.Awaits := by
  rcases h with h | ⟨h, _⟩
  · exact .inl h
  · exact .inr h

/-- An operation on top of the stack is finished with its right operand. -/
theorem finish_operation {b c : Binding} (hbc : b.level ≤ c.level) {n : Nat}
    (hn : n < limits.operations) (l r : Expr) (op : Operator) (column : Nat) (S : List Frame) :
    finish limits b (.operation l op c column :: S) n r =
      finish limits b S (n + 1) (.operation op l r) := by
  rw [finish_of_le hbc, countOperation_of_lt hn]
  rfl

theorem runs_tighter {rule : Rule} {ks : List Token.Kind} {e : Expr}
    (h : Runs limits rule.next ks e) (hrule : 1 ≤ rule.level) : Runs limits rule ks e := by
  intro S n m ts hts hm hS hnest hn
  have hle : rule.level ≤ rule.next.level := by cases rule <;> simp [Rule.level, Rule.next]
  have hm' : m.Starts rule.next := by
    rcases hm with hm | ⟨hm, hlevel⟩
    · exact .inl hm
    · exact .inr ⟨hm, by omega⟩
  -- Whoever finishes down to the looser rule also finishes down to the tighter one.
  rcases h S n m ts hts hm' (by omega) hnest hn with ⟨s, hrun, ⟨e', c, hmode, hfin⟩, hcallee⟩
  refine ⟨s, hrun, ⟨e', c, hmode, fun b hb => hfin b (by omega)⟩, ?_⟩
  rintro rfl
  exact hcallee rfl

theorem runs_positive {ks : List Token.Kind} {e : Expr} (h : Runs limits .product ks e) :
    Runs limits .sum (.plus :: ks) e := by
  intro S n m ts hts hm hS hnest hn
  rcases List.map_eq_cons_iff.mp hts with ⟨t, us, rfl, hk, hus⟩
  rcases hm with rfl | ⟨_, hlevel⟩
  · rw [nestedWithin_cons_iff] at hnest
    rcases h S n .operand us hus (.inr ⟨rfl, by decide⟩) (Nat.le_succ_of_le hS) hnest.2 hn with
      ⟨s, hrun, ⟨e', c, hmode, hfin⟩, _⟩
    refine ⟨s, ?_, ⟨e', c, hmode, fun b hb => hfin b (Nat.le_succ_of_le hb)⟩, by simp⟩
    rw [run_cons_of_move (.plus hk)]
    exact hrun
  · simp [Rule.level] at hlevel

theorem runs_negative {ks : List Token.Kind} {e : Expr} (h : Runs limits .product ks e) :
    Runs limits .sum (.minus :: ks) (.operation (.arith .sub) (.literal .zero) e) := by
  intro S n m ts hts hm hS hnest hn
  rcases List.map_eq_cons_iff.mp hts with ⟨t, us, rfl, hk, hus⟩
  rcases hm with rfl | ⟨_, hlevel⟩
  · rw [nestedWithin_cons_iff] at hnest
    simp only [Expr.size, Nat.zero_add] at hn
    rcases h (.operation (.literal .zero) (.arith .sub) .sum t.column :: S) n .operand us hus
      (.inr ⟨rfl, by decide⟩) (Nat.le_refl 2) hnest.2 (by omega) with
      ⟨s, hrun, ⟨e', c, hmode, hfin⟩, _⟩
    refine ⟨s, ?_, ⟨e', c, hmode, fun b hb => ?_⟩, by simp⟩
    · rw [run_cons_of_move (.minus hk)]
      exact hrun
    · rw [hfin b (Nat.le_succ_of_le hb), finish_operation hb (by omega)]
      simp only [Expr.size, Nat.zero_add, Nat.add_assoc]
  · simp [Rule.level] at hlevel

theorem runs_binary {rule : Rule} {k : Token.Kind} {a : Arith} {ls rs : List Token.Kind}
    {l r : Expr} (hjoin : Joins rule k a) (hls : Derives rule ls l) (hl : Runs limits rule ls l)
    (hr : Runs limits rule.next rs r) :
    Runs limits rule (ls ++ k :: rs) (.operation (.arith a) l r) := by
  intro S n m ts hts hm hS hnest hn
  rcases List.map_eq_append_iff.mp hts with ⟨us, vs, rfl, hus, hvs⟩
  rcases List.map_eq_cons_iff.mp hvs with ⟨t, vs, rfl, hk, hvs⟩
  rcases joins_binary? hjoin with ⟨b, hop, hb⟩
  rw [nestedWithin_append_iff, nestedWithin_cons_iff, hls.unclosed_eq] at hnest
  simp only [Expr.size] at hn
  -- The left operand, and the operator that finishes it.
  rcases hl S n m us hus hm hS hnest.1 (by omega) with ⟨s₁, hrun₁, ⟨e₁, c₁, hmode₁, hfin₁⟩, _⟩
  have hleft : finish limits b s₁.stack s₁.operations e₁ = .ok (S, n + l.size, l) := by
    rw [hfin₁ b (by omega), finish_of_operandLevel_le (by omega)]
  have hmove : Move limits s₁ t
      ⟨.operation l (.arith a) b t.column :: S, n + l.size, .operand⟩ := by
    rcases s₁ with ⟨S₁, n₁, m₁⟩
    cases hmode₁
    exact .binary (hk ▸ hop) hleft
  -- The right operand, on top of the operation that it belongs to.
  have hopen : openAfter (depth S) k = depth S := by cases hjoin <;> rfl
  have hnext : rule.next.level = rule.level + 1 := by cases hjoin <;> rfl
  have hstart : Mode.operand.Starts rule.next :=
    .inr ⟨rfl, by cases hjoin <;> decide⟩
  rcases hr (.operation l (.arith a) b t.column :: S) (n + l.size) .operand vs hvs hstart
    (by simp only [operandLevel]; omega) (hopen ▸ hnest.2.2) (by omega) with
    ⟨s₂, hrun₂, ⟨e₂, c₂, hmode₂, hfin₂⟩, _⟩
  refine ⟨s₂, ?_, ⟨e₂, c₂, hmode₂, fun b' hb' => ?_⟩, by cases hjoin <;> simp⟩
  · rw [run_append_of_run hrun₁, run_cons_of_move hmove]
    exact hrun₂
  · rw [hfin₂ b' (by omega), finish_operation (by omega) (by omega)]
    simp only [Expr.size, Nat.add_assoc]

/-- After an operand, a number or a name is read as if its product had been opened
    before it. -/
theorem step_juxtaposed {s : State} {S : List Frame} {n : Nat} {e l : Expr} {c : Bool}
    {t : Token} (hmode : s.mode = .read e c) (hatom : IsAtom t.kind)
    (hfin : finish limits .juxtaposition s.stack s.operations e = .ok (S, n, l)) :
    step limits s t = step limits
      ⟨.operation l (.arith .mul) .juxtaposition t.column :: S, n, .operand⟩ t := by
  rcases isAtom_atom? hatom with ⟨f, d, hf⟩
  rcases s with ⟨S₁, n₁, m₁⟩
  cases hmode
  rw [step_eq_ok_iff.mpr (.juxtaposed hf hfin), step_eq_ok_iff.mpr (.atom (.inr rfl) hf)]

theorem runs_juxtaposed {k : Token.Kind} {ls rs : List Token.Kind} {l r : Expr}
    (hatom : IsAtom k) (hls : Derives .juxtaposition ls l) (hl : Runs limits .juxtaposition ls l)
    (hr : Runs limits .power (k :: rs) r) :
    Runs limits .juxtaposition (ls ++ k :: rs) (.operation (.arith .mul) l r) := by
  intro S n m ts hts hm hS hnest hn
  rcases List.map_eq_append_iff.mp hts with ⟨us, vs, rfl, hus, hvs⟩
  rcases List.map_eq_cons_iff.mp hvs with ⟨t, ws, rfl, hk, _⟩
  rw [nestedWithin_append_iff, hls.unclosed_eq] at hnest
  simp only [Expr.size] at hn
  rcases hl S n m us hus hm hS hnest.1 (by omega) with ⟨s₁, hrun₁, ⟨e₁, c₁, hmode₁, hfin₁⟩, _⟩
  have hleft : finish limits .juxtaposition s₁.stack s₁.operations e₁ =
      .ok (S, n + l.size, l) := by
    rw [hfin₁ .juxtaposition (Nat.le_refl 3), finish_of_operandLevel_le hS]
  -- The factor starts at the token that opens its product.
  rcases hr (.operation l (.arith .mul) .juxtaposition t.column :: S) (n + l.size) .operand
    (t :: ws) hvs (.inr ⟨rfl, by decide⟩) (Nat.le_refl 4) hnest.2 (by omega) with
    ⟨s₂, hrun₂, ⟨e₂, c₂, hmode₂, hfin₂⟩, _⟩
  refine ⟨s₂, ?_, ⟨e₂, c₂, hmode₂, fun b hb => ?_⟩, by simp⟩
  · rw [run_append_of_run hrun₁, run_cons, step_juxtaposed hmode₁ (hk ▸ hatom) hleft]
    exact hrun₂
  · rw [hfin₂ b (Nat.le_succ_of_le hb), finish_operation hb (by omega)]
    simp only [Expr.size, Nat.add_assoc]

theorem runs_atom {rule : Rule} {k : Token.Kind} {e : Expr} {c : Bool}
    (hatom : atom? k = some (e, c)) (hsize : e.size = 0) (hc : rule = .callee → c = true) :
    Runs limits rule [k] e := by
  intro S n m ts hts hm hS hnest hn
  rcases List.map_eq_cons_iff.mp hts with ⟨t, us, rfl, hk, hus⟩
  rw [List.map_eq_nil_iff.mp hus]
  refine ⟨⟨S, n, .read e c⟩, ?_, ?_⟩
  · rw [run_cons_of_move (.atom hm.awaits (hk ▸ hatom))]
    rfl
  · rw [hsize]
    exact readsTo_self rule S n e c hc

/-- A sum inside of a group is finished by the parenthesis that closes it. -/
theorem run_inside {ks : List Token.Kind} {e : Expr} (hks : Runs limits .sum ks e)
    (callee : Option Expr) (column : Nat) {S : List Frame} {n : Nat} {ts : List Token}
    (hts : ts.map Token.kind = ks) (hnest : NestedWithin limits.nesting (depth S + 1) ks)
    (hn : n + e.size ≤ limits.operations) :
    ∃ S' n' e' c, run limits ⟨.group callee column :: S, n, .signed⟩ ts =
        .ok ⟨S', n', .read e' c⟩ ∧
      finish limits .assignment S' n' e' = .ok (.group callee column :: S, n + e.size, e) := by
  rw [← depth_group callee column S] at hnest
  rcases hks (.group callee column :: S) n .signed ts hts (.inl rfl) (Nat.le_refl 1)
    hnest hn with ⟨s, hrun, ⟨e', c, hmode, hfin⟩, _⟩
  rcases s with ⟨S', n', m'⟩
  cases hmode
  refine ⟨S', n', e', c, hrun, ?_⟩
  rw [hfin .assignment (Nat.zero_le _), finish_group]

theorem runs_group {ks : List Token.Kind} {e : Expr} (hks : Runs limits .sum ks e) :
    Runs limits .callee (.leftParen :: (ks ++ [.rightParen])) e := by
  intro S n m ts hts hm hS hnest hn
  rcases List.map_eq_cons_iff.mp hts with ⟨t, us, rfl, hk, hus⟩
  rcases List.map_eq_append_iff.mp hus with ⟨vs, ws, rfl, hvs, hws⟩
  rcases List.map_eq_cons_iff.mp hws with ⟨t', ws, rfl, hk', hnil⟩
  rw [List.map_eq_nil_iff.mp hnil]
  rw [nestedWithin_cons_iff, nestedWithin_append_iff] at hnest
  -- With the parenthesis open and nothing read inside, there is room for one more.
  have hdepth : depth S < limits.nesting := hnest.2.1 [] List.nil_prefix
  rcases run_inside hks none t.column hvs hnest.2.1 hn with
    ⟨S', n', e', c, hrun, hfin⟩
  refine ⟨⟨S, n + e.size, .read e true⟩, ?_, readsTo_self _ _ _ _ _ fun _ => rfl⟩
  rw [run_cons_of_move (.group hm.awaits hk hdepth), run_append_of_run hrun,
    run_cons_of_move (.close hk' hfin)]
  rfl

theorem runs_call {fs ks : List Token.Kind} {f e : Expr} (hfs : Derives .callee fs f)
    (hf : Runs limits .callee fs f) (hks : Runs limits .sum ks e) :
    Runs limits .primary (fs ++ .leftParen :: (ks ++ [.rightParen])) (.operation .call f e) := by
  intro S n m ts hts hm hS hnest hn
  rcases List.map_eq_append_iff.mp hts with ⟨us, args, rfl, hus, hargs⟩
  rcases List.map_eq_cons_iff.mp hargs with ⟨t, args, rfl, hk, hargs'⟩
  rcases List.map_eq_append_iff.mp hargs' with ⟨vs, ws, rfl, hvs, hws⟩
  rcases List.map_eq_cons_iff.mp hws with ⟨t', ws, rfl, hk', hnil⟩
  rw [List.map_eq_nil_iff.mp hnil]
  rw [nestedWithin_append_iff, nestedWithin_cons_iff, nestedWithin_append_iff,
    hfs.unclosed_eq] at hnest
  simp only [Expr.size] at hn
  have hdepth : depth S < limits.nesting := hnest.2.2.1 [] List.nil_prefix
  -- A callee is read as it stands, whatever is open below it.
  have hm' : m.Starts .callee := by
    rcases hm with hm | ⟨hm, _⟩
    · exact .inl hm
    · exact .inr ⟨hm, by decide⟩
  rcases hf S n m us hus hm' (Nat.le_succ_of_le hS) hnest.1 (by omega) with
    ⟨s₁, hrun₁, _, hcallee⟩
  rw [hcallee rfl] at hrun₁
  have hinside : n + f.size + e.size ≤ limits.operations := by omega
  rcases run_inside hks (some f) t.column hvs hnest.2.2.1 hinside with
    ⟨S', n', e', c, hrun₂, hfin⟩
  have hsize : n + f.size + e.size + 1 = n + (Expr.operation .call f e).size := by
    simp only [Expr.size]
    omega
  refine ⟨⟨S, n + (Expr.operation .call f e).size, .read (.operation .call f e) false⟩, ?_,
    readsTo_self _ _ _ _ _ (by simp)⟩
  rw [run_append_of_run hrun₁, run_cons_of_move (.argument hk hdepth), run_append_of_run hrun₂,
    run_cons_of_move (.closeCall hk' hfin (by omega)), hsize]
  rfl

/-- The parser reads every word that the grammar derives below the level of
    assignments. -/
theorem runs_of_derives {rule : Rule} {ks : List Token.Kind} {e : Expr} (h : Derives rule ks e)
    (hrule : rule ≠ .assignment) : Runs limits rule ks e := by
  induction h with
  | @tighter rule _ _ _ ih =>
      refine runs_tighter (ih (Derives.next_ne_assignment rule)) ?_
      cases rule <;> simp_all [Rule.level]
  | assign _ _ _ _ => exact absurd rfl hrule
  | positive _ ih => exact runs_positive (ih (by simp))
  | negative _ ih => exact runs_negative (ih (by simp))
  | binary hjoin hl _ ihl ihr =>
      exact runs_binary hjoin hl (ihl hrule) (ihr (Derives.next_ne_assignment _))
  | juxtaposed hatom hl _ ihl ihr => exact runs_juxtaposed hatom hl (ihl hrule) (ihr (by simp))
  | number x => exact runs_atom rfl rfl (by simp)
  | call hf _ ihf ihe => exact runs_call hf (ihf (by simp)) (ihe (by simp))
  | name x => exact runs_atom rfl rfl (fun _ => rfl)
  | group _ ih => exact runs_group (ih (by simp))

/-- A sum that starts the text or follows `=` is finished by whatever ends it. -/
theorem run_sum {ks : List Token.Kind} {e : Expr} (h : Derives .sum ks e) {S : List Frame}
    (hS : operandLevel S = 1) (hdepth : depth S = 0) {n : Nat} {ts : List Token}
    (hts : ts.map Token.kind = ks) (hnest : NestedWithin limits.nesting 0 ks)
    (hn : n + e.size ≤ limits.operations) :
    ∃ S' n' e' c, run limits ⟨S, n, .signed⟩ ts = .ok ⟨S', n', .read e' c⟩ ∧
      finish limits .assignment S' n' e' = finish limits .assignment S (n + e.size) e := by
  rcases runs_of_derives h (by simp) S n .signed ts hts (.inl rfl) (Nat.le_of_eq hS)
    (hdepth ▸ hnest) hn with ⟨s, hrun, ⟨e', c, hmode, hfin⟩, _⟩
  rcases s with ⟨S', n', m'⟩
  cases hmode
  exact ⟨S', n', e', c, hrun, hfin .assignment (Nat.zero_le _)⟩

/-- The parser reads every word that the grammar derives, if assignments have names
    on their left and the limits are kept. -/
theorem run_of_derives {ks : List Token.Kind} {e : Expr} (h : Derives .assignment ks e)
    (hbare : e.BareTargets) (hnest : NestedWithin limits.nesting 0 ks)
    (hsize : e.size ≤ limits.operations) {ts : List Token} (hts : ts.map Token.kind = ks)
    {t : Token} (ht : t.kind = .endOfText) :
    run limits .initial (ts ++ [t]) = .ok ⟨[], e.size, .ended e⟩ := by
  rcases h.assignment_cases with hsum | ⟨ls, rs, l, r, rfl, rfl, hl, hr⟩
  · rcases run_sum hsum (S := []) rfl rfl hts hnest (n := 0) (by omega) with
      ⟨S', n', e', c, hrun, hfin⟩
    rw [finish_nil, Nat.zero_add] at hfin
    rw [State.initial, run_append_of_run hrun, run_cons_of_move (.stop ht hfin)]
    rfl
  · rcases hbare with ⟨⟨x, rfl⟩, _⟩
    rcases List.map_eq_append_iff.mp hts with ⟨us, vs, rfl, hus, hvs⟩
    rcases List.map_eq_cons_iff.mp hvs with ⟨q, vs, rfl, hq, hvs'⟩
    -- A name is no assignment, so the left side is a sum.
    have htarget : Derives .sum ls (.name x) := by
      rcases hl.assignment_cases with hsum | ⟨_, _, _, _, _, hne, _, _⟩
      · exact hsum
      · cases hne
    rw [nestedWithin_append_iff, nestedWithin_cons_iff, htarget.unclosed_eq] at hnest
    simp only [Expr.size, Nat.zero_add] at hsize ⊢
    rcases run_sum htarget (S := []) rfl rfl hus hnest.1 (n := 0) (Nat.zero_le _) with
      ⟨S₁, n₁, e₁, c₁, hrun₁, hfin₁⟩
    rw [finish_nil] at hfin₁
    rcases run_sum hr (S := [.operation (.name x) .assign .assignment q.column]) rfl rfl hvs'
      hnest.2.2 (n := 0) (by omega) with ⟨S₂, n₂, e₂, c₂, hrun₂, hfin₂⟩
    -- The end of the text finishes the right side, and then the assignment itself.
    rw [finish_operation (Nat.le_refl _) (by omega), finish_nil, Nat.zero_add] at hfin₂
    rw [State.initial, List.append_assoc, run_append_of_run hrun₁, List.cons_append,
      run_cons_of_move (.assign hq hfin₁)]
    simp only [Expr.size, Nat.zero_add]
    rw [run_append_of_run hrun₂, run_cons_of_move (.stop ht hfin₂)]
    rfl

end Parser

end ZPlane
