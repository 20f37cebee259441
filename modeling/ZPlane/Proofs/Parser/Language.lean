import Mathlib
import ZPlane.Proofs.Parser.Completeness
import ZPlane.Proofs.Parser.Limits
import ZPlane.Proofs.Parser.Soundness
import ZPlane.Proofs.Token.Scans

/-!
# The Language of the Parser

The parser and the grammar agree: tokens denote a tree exactly when the grammar
derives it from them, assignments have bare names on their left, and the tree and
the text keep the limits.

That a word has one tree at most is a fact about the grammar, and still the parser
is the shortest way to it. The parser is a function, and under limits that are
large enough for both trees it arrives at each of them. Assignments are left out of
this, since the parser refuses most of them; they are taken apart at their last `=`.

## Theorems

* `Grammar.Derives.unique`: A word has one tree at most.
* `Expr.ofTokensWithin_eq_ok_iff`: What the parser accepts, under any limits.
* `Expr.exceeds_of_derives`: A derived word is refused for a limit alone.
* `Expr.ofTokens_scan`: The tokens of a text and the grammar.
-/

namespace ZPlane

open Grammar

namespace Grammar

/-- Limits that a word and a tree keep. -/
def roomFor (ks : List Token.Kind) (e : Expr) : Parser.Limits :=
  ⟨ks.length, e.size⟩

theorem nestedWithin_roomFor (ks : List Token.Kind) (e : Expr) :
    NestedWithin (roomFor ks e).nesting 0 ks :=
  nestedWithin_of_length_le (by rw [Nat.zero_add]; exact Nat.le_refl _)

namespace Derives

/-- A sum has one tree at most: the parser arrives at each of them. -/
theorem sum_unique {ks : List Token.Kind} {e e' : Expr} (h : Derives .sum ks e)
    (h' : Derives .sum ks e') : e = e' := by
  let ts : List Token := ks.map fun k => ⟨k, "", 0⟩
  have hts : ts.map Token.kind = ks := by
    simp [ts, Function.comp_def]
  have hrun {f : Expr} (hf : Derives .sum ks f) :
      Parser.run (roomFor ks f) .initial (ts ++ [⟨.endOfText, "", 0⟩]) =
        .ok ⟨[], f.size, .ended f⟩ :=
    Parser.run_of_derives (.tighter hf) (hf.assignFree (by simp)).bareTargets
      (nestedWithin_roomFor ks f) (Nat.le_refl _) hts rfl
  have heq := Parser.run_ok_unique (hrun h) (hrun h')
  exact Parser.Mode.ended.inj (congrArg Parser.State.mode heq)

/-- Where a word was cut at its last `=`, there is one way to do so. -/
theorem append_equal_inj {ls ls' rs rs' : List Token.Kind}
    (heq : ls ++ .equal :: rs = ls' ++ .equal :: rs') (hrs : Token.Kind.equal ∉ rs)
    (hrs' : Token.Kind.equal ∉ rs') : ls = ls' ∧ rs = rs' := by
  rcases List.append_eq_append_iff.mp heq with ⟨ms, rfl, hms⟩ | ⟨ms, rfl, hms⟩
  · cases ms with
    | nil =>
        cases hms
        exact ⟨by simp, rfl⟩
    | cons k ms =>
        cases hms
        exact absurd (by simp) hrs
  · cases ms with
    | nil =>
        cases hms
        exact ⟨by simp, rfl⟩
    | cons k ms =>
        cases hms
        exact absurd (by simp) hrs'

/-- A word has one tree at most. -/
theorem unique {ks : List Token.Kind} {e e' : Expr} (h : Derives .assignment ks e)
    (h' : Derives .assignment ks e') : e = e' := by
  -- Every `=` that is cut off leaves a shorter word.
  induction hn : ks.length using Nat.strongRecOn generalizing ks e e' with
  | ind n ih =>
      rcases h.assignment_cases with hsum | ⟨ls, rs, l, r, hks, rfl, hl, hr⟩
      · rcases h'.assignment_cases with hsum' | ⟨_, _, _, _, rfl, _, _, _⟩
        · exact hsum.sum_unique hsum'
        · exact absurd (by simp) (hsum.equal_not_mem (by simp))
      · rcases h'.assignment_cases with hsum' | ⟨ls', rs', l', r', hks', rfl, hl', hr'⟩
        · subst hks
          exact absurd (by simp) (hsum'.equal_not_mem (by simp))
        · have hsplit := append_equal_inj (hks.symm.trans hks') (hr.equal_not_mem (by simp))
            (hr'.equal_not_mem (by simp))
          rcases hsplit with ⟨rfl, rfl⟩
          have hlt : ls.length < n := by
            rw [← hn, hks, List.length_append, List.length_cons]
            omega
          rw [ih ls.length hlt hl hl' rfl, hr.sum_unique hr']

end Derives

end Grammar

namespace Expr

/-- What was read of a list of tokens is what its last state holds. -/
theorem ofTokensWithin_eq_ok {limits : Parser.Limits} {tokens : List Token} {e : Expr} :
    ofTokensWithin limits tokens = .ok e ↔
      ∃ s, Parser.run limits .initial tokens = .ok s ∧ s.mode = .ended e := by
  unfold ofTokensWithin
  constructor
  · intro h
    rcases ok_and_ok_of_bind h with ⟨s, hrun, hmode⟩
    refine ⟨s, hrun, ?_⟩
    split at hmode
    · next e' hended =>
        cases hmode
        exact hended
    · cases hmode
  · rintro ⟨⟨S, n, m⟩, hrun, hmode⟩
    rw [hrun]
    cases hmode
    rfl

variable {limits : Parser.Limits} {ts : List Token} {t : Token}

/-- The parser accepts what the grammar derives, with bare names to the left of
    assignments and within the limits, and nothing else. -/
theorem ofTokensWithin_eq_ok_iff (hts : ∀ u ∈ ts, u.kind ≠ .endOfText)
    (ht : t.kind = .endOfText) (e : Expr) :
    ofTokensWithin limits (ts ++ [t]) = .ok e ↔
      Derives .assignment (ts.map Token.kind) e ∧ e.BareTargets ∧
        e.size ≤ limits.operations ∧ NestedWithin limits.nesting 0 (ts.map Token.kind) := by
  rw [ofTokensWithin_eq_ok]
  constructor
  · rintro ⟨s, hrun, hmode⟩
    rcases Parser.derives_of_run hrun hts ht with ⟨n, f, rfl, hd, hbare⟩
    cases hmode
    -- Under limits with room enough, the operations counted are those of the tree.
    have hroom := Parser.run_of_derives hd hbare (nestedWithin_roomFor _ e) (Nat.le_refl _) rfl ht
    have hn : n = e.size := congrArg Parser.State.operations (Parser.run_ok_unique hrun hroom)
    -- The limits are kept up to the last token, and the last move keeps them too.
    rw [Parser.run_append] at hrun
    rcases ok_and_ok_of_bind hrun with ⟨s₁, hrun₁, hlast⟩
    rcases ok_and_ok_of_bind hlast with ⟨s₂, hstep, hnil⟩
    cases hnil
    have hinitial : Parser.State.initial.Within limits := ⟨Nat.zero_le _, Nat.zero_le _⟩
    rcases Parser.within_of_run hrun₁ hinitial nofun hts with ⟨hwithin, hnest⟩
    have hfinal := ((Parser.step_eq_ok_iff.mp hstep).within hwithin).operations
    exact ⟨hd, hbare, hn ▸ hfinal, hnest⟩
  · rintro ⟨hd, hbare, hsize, hnest⟩
    exact ⟨_, Parser.run_of_derives hd hbare hnest hsize rfl ht, rfl⟩

/-- The tokens of a text denote what the grammar derives from their word. -/
theorem ofTokens_eq_ok_iff {text : String} {tokens : List Token}
    (hscan : Token.scan text = .ok tokens) {e : Expr} :
    ofTokens tokens = .ok e ↔ Derives .assignment (Token.word tokens) e ∧ e.BareTargets ∧
      e.size ≤ 512 ∧ NestedWithin 128 0 (Token.word tokens) := by
  rcases Token.exists_of_scan hscan with ⟨us, last, rfl, hlast, hus, hword⟩
  rw [hword]
  exact ofTokensWithin_eq_ok_iff (fun u hu => (hus u hu).ne_endOfText) hlast e

/-- Where the grammar derives a tree with bare names to the left of assignments, the
    parser refuses it for an exceeded limit or not at all. -/
theorem exceeds_of_derives (ht : t.kind = .endOfText) {e : Expr}
    (hd : Derives .assignment (ts.map Token.kind) e) (hbare : e.BareTargets)
    (h : ofTokensWithin limits (ts ++ [t]) ≠ .ok e) :
    Parser.Exceeds (ofTokensWithin limits (ts ++ [t])) := by
  have hroom := Parser.run_of_derives hd hbare (nestedWithin_roomFor _ e) (Nat.le_refl _) rfl ht
  rcases Parser.run_eq_or_exceeds hroom with hrun | hexceeds
  · exact absurd (ofTokensWithin_eq_ok.mpr ⟨_, hrun, rfl⟩) h
  · exact hexceeds.bind _

/-- The tokens of a text denote a tree exactly when the grammar derives it from
    them, the tree to the left of every assignment is a bare name, there are at most
    512 operations, and nowhere in the text are more than 128 parentheses open. No
    text has two trees. Where only a limit stands in the way of the tree, the text is
    refused for that. -/
theorem ofTokens_scan {text : String} {tokens : List Token}
    (hscan : Token.scan text = .ok tokens) :
    (∀ e, ofTokens tokens = .ok e ↔
      Derives .assignment (Token.word tokens) e ∧ e.BareTargets ∧ e.size ≤ 512 ∧
        ∀ ps, ps <+: Token.word tokens → unclosed ps ≤ 128) ∧
    (∀ e e', Derives .assignment (Token.word tokens) e →
      Derives .assignment (Token.word tokens) e' → e = e') ∧
    ∀ e, Derives .assignment (Token.word tokens) e → e.BareTargets →
      (512 < e.size ∨ ∃ ps, ps <+: Token.word tokens ∧ 128 < unclosed ps) →
      ∃ err, ofTokens tokens = .error err ∧
        (err.cause = .nestingTooDeep ∨ err.cause = .expressionTooLarge) := by
  rcases Token.exists_of_scan hscan with ⟨us, last, rfl, hlast, hus, hword⟩
  rw [hword]
  have hiff (e : Expr) : ofTokens (us ++ [last]) = .ok e ↔
      Derives .assignment (us.map Token.kind) e ∧ e.BareTargets ∧ e.size ≤ 512 ∧
        ∀ ps, ps <+: us.map Token.kind → unclosed ps ≤ 128 :=
    ofTokensWithin_eq_ok_iff (fun u hu => (hus u hu).ne_endOfText) hlast e
  refine ⟨hiff, fun e e' => Derives.unique, ?_⟩
  intro e hd hbare hbroken
  refine exceeds_of_derives hlast hd hbare fun hok => ?_
  rcases (hiff e).mp hok with ⟨_, _, hsize, hnest⟩
  rcases hbroken with hlarge | ⟨ps, hps, hdeep⟩
  · exact absurd hsize (Nat.not_le_of_lt hlarge)
  · exact absurd (hnest ps hps) (Nat.not_le_of_lt hdeep)

/-- A minus sign takes in a whole product, and a name next to a call is a factor. -/
theorem ofTokens_scan_signed_product : ∃ tokens, Token.scan "w = -f(z)y" = .ok tokens ∧
    ofTokens tokens = .ok (.operation .assign (.name "w")
      (.operation (.arith .sub) (.literal .zero)
        (.operation (.arith .mul) (.operation .call (.name "f") (.name "z")) (.name "y")))) := by
  have hscan : Token.scan "w = -f(z)y" = .ok
      [⟨.identifier "w", "w", 1⟩, ⟨.equal, "=", 3⟩, ⟨.minus, "-", 5⟩, ⟨.identifier "f", "f", 6⟩,
        ⟨.leftParen, "(", 7⟩, ⟨.identifier "z", "z", 8⟩, ⟨.rightParen, ")", 9⟩,
        ⟨.identifier "y", "y", 10⟩, ⟨.endOfText, "", 11⟩] := by
    cbv
  have hname (r : Rule) (x : String) : Derives r [.identifier x] (.name x) :=
    (Derives.name x).loosen (by cases r <;> decide)
  have hcall : Derives .juxtaposition [.identifier "f", .leftParen, .identifier "z", .rightParen]
      (.operation .call (.name "f") (.name "z")) :=
    (Derives.call (hname .callee "f") (hname .sum "z")).loosen (by decide)
  have hproduct : Derives .product
      ([.identifier "f", .leftParen, .identifier "z", .rightParen] ++ [.identifier "y"])
      (.operation (.arith .mul) (.operation .call (.name "f") (.name "z")) (.name "y")) :=
    .tighter (.juxtaposed trivial hcall (hname .power "y"))
  refine ⟨_, hscan, ((ofTokens_scan hscan).1 _).mpr ⟨?_, ?_, ?_, ?_⟩⟩
  · exact .assign (hname .assignment "w") (.negative hproduct)
  · exact ⟨⟨"w", rfl⟩, trivial, ⟨trivial, trivial⟩, trivial⟩
  · decide
  · change NestedWithin 128 0 _
    exact nestedWithin_of_length_le (by decide)

end Expr

end ZPlane
