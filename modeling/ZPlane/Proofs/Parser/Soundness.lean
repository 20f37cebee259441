import ZPlane.Proofs.Grammar
import ZPlane.Proofs.Parser.Move

/-!
# Soundness of the Parser

Whatever the parser reads is derived by the grammar, and every assignment in it has
a bare name on its left.

The stack of the parser is an unfinished derivation. Each frame holds an operand
that is complete, and together with the token that opened the frame it accounts for
a stretch of the text. `Opens`, `Awaits` and `Holds` say which words a stack can
stand for: before anything was read on top of it, where an operand is to come, and
after an operand was read. The three differ by what has no frame, a plus sign and
the operand itself.

Two things that a frame does not show have to be remembered. The right factor of a
juxtaposition has to start with a number or a name, since no token opens its frame.
And an operand belongs to a rule that is tighter than the innermost operation, which
is what lets `finish` put the two together.

Every move keeps a state within the words that it stands for, by one case for each
thing that a token can do, and so does every run.

## Main definitions

* `Binding.rule`: The rule of an operation.
* `Parser.Opens`, `Parser.Awaits`, `Parser.Holds`: The words of a stack.
* `Parser.Ends`: The words of a finished sum or assignment.
* `Parser.Spelled`: The words of a state.

## Theorems

* `Parser.Holds.finishes`: Finishing operations keeps the words of a stack.
* `Parser.Spelled.move`: A move extends the words of a state by its token.
* `Parser.Spelled.run`: A run extends the words of a state by its tokens.
* `Parser.derives_of_run`: Whatever is read to its end is derived.
-/

namespace ZPlane

open Grammar

/-- The rule of an operation that binds in a given way. -/
def Binding.rule : Binding → Rule
  | .assignment => .assignment
  | .sum => .sum
  | .product => .product
  | .juxtaposition => .juxtaposition
  | .power => .power

theorem Binding.level_rule (b : Binding) : b.rule.level = b.level := by
  cases b <;> rfl

theorem Binding.level_next_rule (b : Binding) : b.rule.next.level = b.level + 1 := by
  cases b <;> rfl

namespace Parser

variable {limits : Limits}

theorem binary?_joins {k : Token.Kind} {a : Arith} {b : Binding} (h : binary? k = some (a, b)) :
    Joins b.rule k a := by
  cases k <;> cases h <;> constructor

/-- The operand on top of the stack is the right factor of a juxtaposition. -/
def AwaitsFactor (S : List Frame) : Prop :=
  ∃ l op column rest, S = .operation l op .juxtaposition column :: rest

/-- A word that may be read on top of the stack. The right factor of a
    juxtaposition starts with a number or a name. -/
def StartsOn (S : List Frame) (ks : List Token.Kind) : Prop :=
  AwaitsFactor S → ∃ k rest, ks = k :: rest ∧ IsAtom k

mutual

/-- The words after which a stack is open and nothing was read on top of it. -/
inductive Opens : List Frame → List Token.Kind → Prop
  | bottom : Opens [] []
  | assign {ks : List Token.Kind} {x : String} {column : Nat} :
      Holds [] .sum (.name x) ks →
      Opens [.operation (.name x) .assign .assignment column] (ks ++ [.equal])
  | group {S : List Frame} {ks : List Token.Kind} {column : Nat} :
      Awaits S .callee ks → ¬ AwaitsFactor S →
      Opens (.group none column :: S) (ks ++ [.leftParen])
  | argument {S : List Frame} {ks : List Token.Kind} {f : Expr} {column : Nat} :
      Holds S .callee f ks → Opens (.group (some f) column :: S) (ks ++ [.leftParen])
  | negative {S : List Frame} {ks : List Token.Kind} {column : Nat} :
      Opens S ks → operandLevel S = 1 →
      Opens (.operation (.literal .zero) (.arith .sub) .sum column :: S) (ks ++ [.minus])
  | binary {S : List Frame} {ks : List Token.Kind} {l : Expr} {k : Token.Kind} {a : Arith}
      {b : Binding} {column : Nat} :
      Joins b.rule k a → Holds S b.rule l ks →
      Opens (.operation l (.arith a) b column :: S) (ks ++ [k])
  | juxtaposed {S : List Frame} {ks : List Token.Kind} {l : Expr} {column : Nat} :
      Holds S .juxtaposition l ks →
      Opens (.operation l (.arith .mul) .juxtaposition column :: S) ks

/-- The words after which an operand of a rule may come on top of a stack. A plus
    sign before a sum leaves nothing on the stack. -/
inductive Awaits : List Frame → Rule → List Token.Kind → Prop
  | plain {S : List Frame} {rule : Rule} {ks : List Token.Kind} :
      Opens S ks → operandLevel S ≤ rule.level → Awaits S rule ks
  | positive {S : List Frame} {rule : Rule} {ks : List Token.Kind} :
      Opens S ks → operandLevel S = 1 → 2 ≤ rule.level → Awaits S rule (ks ++ [.plus])

/-- The words after which an operand of a rule was read on top of a stack. -/
inductive Holds : List Frame → Rule → Expr → List Token.Kind → Prop
  | operand {S : List Frame} {rule : Rule} {e : Expr} {ks es : List Token.Kind} :
      Awaits S rule ks → Derives rule es e → StartsOn S es → Holds S rule e (ks ++ es)

end

theorem not_awaitsFactor_of_operandLevel {S : List Frame} (h : operandLevel S = 1) :
    ¬ AwaitsFactor S := by
  rintro ⟨l, op, column, rest, rfl⟩
  simp [operandLevel, Binding.level] at h

theorem StartsOn.append {S : List Frame} {ks : List Token.Kind} (h : StartsOn S ks)
    (ls : List Token.Kind) : StartsOn S (ks ++ ls) := by
  intro hfactor
  rcases h hfactor with ⟨k, rest, rfl, hatom⟩
  exact ⟨k, rest ++ ls, rfl, hatom⟩

/-- Where no factor is awaited, any word may be read. -/
theorem startsOn_of_not {S : List Frame} (h : ¬ AwaitsFactor S) (ks : List Token.Kind) :
    StartsOn S ks :=
  fun hfactor => absurd hfactor h

theorem Awaits.operandLevel_le {S : List Frame} {rule : Rule} {ks : List Token.Kind}
    (h : Awaits S rule ks) : operandLevel S ≤ rule.level := by
  cases h with
  | plain _ hle => exact hle
  | positive _ hS hle => omega

theorem Holds.operandLevel_le {S : List Frame} {rule : Rule} {e : Expr} {ks : List Token.Kind}
    (h : Holds S rule e ks) : operandLevel S ≤ rule.level := by
  cases h with
  | operand hawaits _ _ => exact hawaits.operandLevel_le

/-- An operand belongs to every looser rule that the stack admits. -/
theorem Holds.loosen {S : List Frame} {r s : Rule} {e : Expr} {ks : List Token.Kind}
    (h : Holds S s e ks) (hS : operandLevel S ≤ r.level) (hrs : r.level ≤ s.level) :
    Holds S r e ks := by
  cases h with
  | operand hawaits hd hstart =>
      cases hawaits with
      | plain hopens _ => exact .operand (.plain hopens hS) (hd.loosen hrs) hstart
      | @positive _ _ ks hopens hone htwo =>
          by_cases hr : 2 ≤ r.level
          · exact .operand (.positive hopens hone hr) (hd.loosen hrs) hstart
          · -- The sign is part of the sum.
            have hlevel : r.level = Rule.sum.level := by
              change r.level = 1
              omega
            have hsum := Rule.level_injective hlevel
            subst hsum
            rw [List.append_assoc]
            exact .operand (.plain hopens hS) (.positive (hd.loosen htwo))
              (startsOn_of_not (not_awaitsFactor_of_operandLevel hone) _)

/-- The innermost operation is finished with its right operand. -/
theorem Holds.finish_operation {S : List Frame} {rule : Rule} {l e : Expr} {op : Operator}
    {b : Binding} {column : Nat} {ks : List Token.Kind}
    (h : Holds (.operation l op b column :: S) rule e ks) (hb : b ≠ .assignment) :
    Holds S b.rule (.operation op l e) ks := by
  have hlevel := h.operandLevel_le
  simp only [operandLevel] at hlevel
  cases h with
  | operand hawaits hd hstart =>
      cases hawaits with
      | positive _ hone _ => cases b <;> simp_all [operandLevel, Binding.level]
      | plain hopens _ =>
          cases hopens with
          | assign _ => exact absurd rfl hb
          | negative hopens hone =>
              rw [List.append_assoc]
              exact .operand (.plain hopens (by rw [hone]; decide)) (.negative (hd.loosen hlevel))
                (startsOn_of_not (not_awaitsFactor_of_operandLevel hone) _)
          | binary hjoin hl =>
              cases hl with
              | operand hawaits hdl hstartl =>
                  rw [List.append_assoc, List.append_assoc]
                  refine .operand hawaits (.binary hjoin hdl (hd.loosen ?_)) (hstartl.append _)
                  rw [Binding.level_next_rule]
                  exact hlevel
          | juxtaposed hl =>
              cases hl with
              | operand hawaits hdl hstartl =>
                  -- No token opened the frame, so the factor itself has to show its start.
                  rcases hstart ⟨_, _, _, _, rfl⟩ with ⟨k, rest, rfl, hatom⟩
                  rw [List.append_assoc]
                  exact .operand hawaits (.juxtaposed hatom hdl (hd.loosen hlevel))
                    (hstartl.append _)

/-- Finishing operations down to a binding gives an operand of its rule. -/
theorem Holds.finishes {b : Binding} (hb : b ≠ .assignment) {S S' : List Frame} {rule : Rule}
    {e e' : Expr} {n n' : Nat} {ks : List Token.Kind} (h : Holds S rule e ks)
    (hfin : finish limits b S n e = .ok (S', n', e')) (hle : b.level ≤ rule.level) :
    Holds S' b.rule e' ks := by
  have hone : 1 ≤ b.level := by cases b <;> simp_all [Binding.level]
  induction S generalizing rule e n with
  | nil =>
      rw [finish_nil] at hfin
      cases hfin
      exact h.loosen (b.level_rule ▸ hone) (b.level_rule ▸ hle)
  | cons frame rest ih =>
      cases frame with
      | group callee column =>
          rw [finish_group] at hfin
          cases hfin
          exact h.loosen (b.level_rule ▸ hone) (b.level_rule ▸ hle)
      | operation l op c column =>
          by_cases hc : b.level ≤ c.level
          · rw [finish_of_le hc] at hfin
            rcases ok_and_ok_of_bind hfin with ⟨m, _, hrest⟩
            have hassign : c ≠ .assignment := by
              rintro rfl
              simp [Binding.level] at hc hone
              omega
            exact ih (h.finish_operation hassign) hrest (c.level_rule ▸ hc)
          · rw [finish_of_lt (by omega)] at hfin
            cases hfin
            refine h.loosen ?_ (b.level_rule ▸ hle)
            rw [b.level_rule]
            simp only [operandLevel]
            omega

/-- What is at hand when everything down to a group or the bottom of the stack is
    finished: a sum, or at the bottom an assignment. -/
inductive Ends : List Frame → Expr → List Token.Kind → Prop
  | sum {S : List Frame} {e : Expr} {ks : List Token.Kind} : Holds S .sum e ks → Ends S e ks
  | assignment {x : String} {r : Expr} {ls rs : List Token.Kind} :
      Derives .sum ls (.name x) → Derives .sum rs r →
      Ends [] (.operation .assign (.name x) r) (ls ++ .equal :: rs)

/-- A sum takes in its sign, so nothing is left between it and the stack. -/
theorem Holds.split_sum {S : List Frame} {e : Expr} {ks : List Token.Kind}
    (h : Holds S .sum e ks) : ∃ ps es, ks = ps ++ es ∧ Opens S ps ∧ Derives .sum es e := by
  cases h with
  | operand hawaits hd _ =>
      cases hawaits with
      | plain hopens _ => exact ⟨_, _, rfl, hopens, hd⟩
      | positive _ _ htwo => simp [Rule.level] at htwo

/-- Everything that is read at the bottom of the stack is the operand. -/
theorem Holds.derives {e : Expr} {ks : List Token.Kind} (h : Holds [] .sum e ks) :
    Derives .sum ks e := by
  rcases h.split_sum with ⟨ps, es, rfl, hopens, hd⟩
  cases hopens
  exact hd

/-- Finishing everything gives a sum, or at the bottom an assignment. -/
theorem Holds.ends {S S' : List Frame} {rule : Rule} {e e' : Expr} {n n' : Nat}
    {ks : List Token.Kind} (h : Holds S rule e ks)
    (hfin : finish limits .assignment S n e = .ok (S', n', e')) : Ends S' e' ks := by
  induction S generalizing rule e n with
  | nil =>
      have hle := h.operandLevel_le
      rw [finish_nil] at hfin
      cases hfin
      exact .sum (h.loosen (Nat.le_refl 1) hle)
  | cons frame rest ih =>
      cases frame with
      | group callee column =>
          have hle := h.operandLevel_le
          rw [finish_group] at hfin
          cases hfin
          exact .sum (h.loosen (Nat.le_refl 1) hle)
      | operation l op c column =>
          have hle : Binding.assignment.level ≤ c.level := Nat.zero_le _
          rw [finish_of_le hle] at hfin
          rcases ok_and_ok_of_bind hfin with ⟨m, _, hrest⟩
          by_cases hc : c = .assignment
          · -- An assignment stands at the bottom, so this is the last operation.
            subst hc
            have hsum : Holds _ .sum e ks := h.loosen (Nat.le_refl 1) h.operandLevel_le
            rcases hsum.split_sum with ⟨ps, es, rfl, hopens, hd⟩
            cases hopens with
            | assign htarget =>
                rw [finish_nil] at hrest
                cases hrest
                rw [List.append_assoc]
                exact .assignment htarget.derives hd
            | binary hjoin _ => cases hjoin
          · exact ih (h.finish_operation hc) hrest

/-- A sum inside of a group follows what opened the group. -/
theorem Ends.inside {callee : Option Expr} {column : Nat} {S : List Frame} {e : Expr}
    {ks : List Token.Kind} (h : Ends (.group callee column :: S) e ks) :
    ∃ ps es, ks = ps ++ es ∧ Opens (.group callee column :: S) ps ∧ Derives .sum es e := by
  cases h with
  | sum hsum => exact hsum.split_sum

/-- The words that a state of the parser was reached by. -/
def Spelled (s : State) (ks : List Token.Kind) : Prop :=
  match s.mode with
  | .signed => Opens s.stack ks ∧ operandLevel s.stack = 1
  | .operand => Awaits s.stack .callee ks ∧ ¬ AwaitsFactor s.stack
  | .read e callable => Holds s.stack (if callable then .callee else .primary) e ks
  | .ended _ => False

theorem spelled_initial : Spelled .initial [] :=
  ⟨.bottom, rfl⟩

theorem Spelled.awaits {S : List Frame} {n : Nat} {m : Mode} {ks : List Token.Kind}
    (h : Spelled ⟨S, n, m⟩ ks) (hm : m.Awaits) :
    Awaits S .callee ks ∧ ¬ AwaitsFactor S := by
  rcases hm with rfl | rfl
  · rcases h with ⟨hopens, hone⟩
    dsimp only at hopens hone
    exact ⟨.plain hopens (by rw [hone]; decide), not_awaitsFactor_of_operandLevel hone⟩
  · exact h

theorem derives_of_atom? {k : Token.Kind} {e : Expr} {c : Bool} (h : atom? k = some (e, c)) :
    Derives (if c then .callee else .primary) [k] e ∧ IsAtom k := by
  cases k <;> cases h
  · exact ⟨.name _, trivial⟩
  · exact ⟨.number _, trivial⟩

theorem level_callable (c : Bool) : 5 ≤ (if c then Rule.callee else Rule.primary).level := by
  cases c <;> decide

theorem operandLevel_le_five (S : List Frame) : operandLevel S ≤ 5 := by
  unfold operandLevel
  split
  · next b _ _ => cases b <;> decide
  · decide

/-- An operand of a tight enough rule fits on every stack. -/
theorem Awaits.tight {S : List Frame} {r s : Rule} {ks : List Token.Kind} (h : Awaits S s ks)
    (hr : 5 ≤ r.level) : Awaits S r ks := by
  have hS := operandLevel_le_five S
  cases h with
  | plain hopens _ => exact .plain hopens (by omega)
  | positive hopens hone _ => exact .positive hopens hone (by omega)

theorem Holds.primary {S : List Frame} {c : Bool} {e : Expr} {ks : List Token.Kind}
    (h : Holds S (if c then .callee else .primary) e ks) : Holds S .primary e ks :=
  h.loosen (operandLevel_le_five S) (level_callable c)

/-- Every move extends the words of its state by its token. -/
theorem Spelled.move {s s' : State} {t : Token} {ks : List Token.Kind} (h : Spelled s ks)
    (hmove : Move limits s t s') (ht : t.kind ≠ .endOfText) : Spelled s' (ks ++ [t.kind]) := by
  cases hmove with
  | @atom _ _ _ _ _ c hm hatom =>
      rcases h.awaits hm with ⟨hawaits, hfactor⟩
      rcases derives_of_atom? hatom with ⟨hd, _⟩
      exact .operand (hawaits.tight (level_callable c)) hd (startsOn_of_not hfactor _)
  | plus hk =>
      rcases h with ⟨hopens, hone⟩
      rw [hk]
      exact ⟨.positive hopens hone (by decide), not_awaitsFactor_of_operandLevel hone⟩
  | minus hk =>
      rcases h with ⟨hopens, hone⟩
      rw [hk]
      refine ⟨.plain (.negative hopens hone) (by decide : 2 ≤ 6), ?_⟩
      rintro ⟨l, op, column, rest, heq⟩
      cases heq
  | group hm hk hdepth =>
      rcases h.awaits hm with ⟨hawaits, hfactor⟩
      rw [hk]
      exact ⟨.group hawaits hfactor, rfl⟩
  | @binary S S' n n' e l c t a b hop hfin =>
      have hjoin := binary?_joins hop
      have hassign : b ≠ .assignment := by
        rintro rfl
        cases hjoin
      have hl := Holds.finishes hassign (Holds.primary h) hfin (by cases b <;> decide)
      refine ⟨.plain (.binary hjoin hl) (Nat.le_succ_of_le (operandLevel_le_five _)), ?_⟩
      rintro ⟨l', op, column, rest, heq⟩
      cases heq
      cases hjoin
  | juxtaposed hatom hfin =>
      -- The token is the first of the factor and opens its frame at the same time.
      rcases derives_of_atom? hatom with ⟨hd, hisAtom⟩
      have hl := Holds.finishes (by simp) (Holds.primary h) hfin (by decide)
      refine .operand (.plain (.juxtaposed hl) ?_) hd fun _ => ⟨_, _, rfl, hisAtom⟩
      exact Nat.le_trans (operandLevel_le_five _) (level_callable _)
  | argument hk hdepth =>
      rw [hk]
      exact ⟨.argument h, rfl⟩
  | close hk hfin =>
      rcases (Holds.ends h hfin).inside with ⟨ps, es, rfl, hopens, hd⟩
      rw [hk]
      cases hopens with
      | group hawaits hfactor =>
          rw [List.append_assoc, List.append_assoc]
          exact .operand hawaits (.group hd) (startsOn_of_not hfactor _)
  | closeCall hk hfin hlt =>
      rcases (Holds.ends h hfin).inside with ⟨ps, es, rfl, hopens, hd⟩
      rw [hk]
      cases hopens with
      | argument hf =>
          cases hf with
          | operand hawaits hdf hstart =>
              rw [List.append_assoc, List.append_assoc, List.append_assoc]
              exact .operand (hawaits.tight (Nat.le_refl 5)) (.call hdf hd) (hstart.append _)
  | assign hk hfin =>
      rw [hk]
      cases Holds.ends h hfin with
      | sum hsum => exact ⟨.assign hsum, rfl⟩
  | stop hk hfin => exact absurd hk ht
  | ended => exact h.elim

/-- A run extends the words of its state by its tokens. -/
theorem Spelled.run {s s' : State} {ts : List Token} {ks : List Token.Kind} (h : Spelled s ks)
    (hrun : run limits s ts = .ok s') (hts : ∀ t ∈ ts, t.kind ≠ .endOfText) :
    Spelled s' (ks ++ ts.map Token.kind) := by
  refine run_invariant (P := fun read s₁ => Spelled s₁ (ks ++ read.map Token.kind)) hrun ?_ ?_
  · rw [List.map_nil, List.append_nil]
    exact h
  · intro read t s₁ s₂ ht hmove hread
    rw [List.map_append, ← List.append_assoc]
    exact hread.move hmove (hts t ht)

/-- What is at hand at the end of the text is derived by the grammar. -/
theorem Ends.derives {e : Expr} {ks : List Token.Kind} (h : Ends [] e ks) :
    Derives .assignment ks e ∧ e.BareTargets := by
  cases h with
  | sum hsum => exact ⟨.tighter hsum.derives, (hsum.derives.assignFree (by simp)).bareTargets⟩
  | assignment hl hr =>
      exact ⟨.assign (.tighter hl) hr, ⟨_, rfl⟩, (hr.assignFree (by simp)).bareTargets⟩

/-- Whatever the parser reads is derived by the grammar, with a name to the left of
    every assignment. -/
theorem derives_of_run {ts : List Token} {t : Token} {s : State}
    (hrun : run limits .initial (ts ++ [t]) = .ok s) (hts : ∀ u ∈ ts, u.kind ≠ .endOfText)
    (ht : t.kind = .endOfText) :
    ∃ n e, s = ⟨[], n, .ended e⟩ ∧ Derives .assignment (ts.map Token.kind) e ∧ e.BareTargets := by
  rw [run_append] at hrun
  rcases ok_and_ok_of_bind hrun with ⟨s₁, hrun₁, hlast⟩
  have hspelled := spelled_initial.run hrun₁ hts
  rw [List.nil_append] at hspelled
  rcases ok_and_ok_of_bind hlast with ⟨s₂, hstep, hnil⟩
  cases hnil
  rcases (step_eq_ok_iff.mp hstep).of_endOfText ht with
    ⟨e, c, n', e', hmode, hfin, rfl⟩ | ⟨e, hmode, rfl⟩
  · rw [Spelled, hmode] at hspelled
    exact ⟨n', e', rfl, (Holds.ends hspelled hfin).derives⟩
  · rw [Spelled, hmode] at hspelled
    exact hspelled.elim

end Parser

end ZPlane
