import ZPlane.Complex.Text
import ZPlane.Proofs.Decimal.Positional
import ZPlane.Proofs.Evaluation.Assignment
import ZPlane.Proofs.Parser.Grouping
import ZPlane.Proofs.Token.Numerals

/-!
# Numbers Read Back

The text of a number is an expression, and its value is the number, wherever `i` is the
imaginary unit. The text has up to five tokens: a sign and a numeral for the real part, then
a sign, a numeral and `i` for the imaginary part. A numeral next to `i` is a product, and a
sign in front is a difference from zero, so the value comes out of a few operations on floats
that have a zero or a one on one side. None of them rounds.

The value is equal to the number, and no more can be said: the sign of a zero part is not
written, and so it is lost.

## Main definitions

* `Denotes`: Characters that are an expression with a number for its value.

## Theorems

* `Denotes.evaluate_eq`: The value of a text whose characters denote a number.
* `denotes_real`, `denotes_unitText`: The texts of the two parts.
* `Complex.text_reads_back`: The text of a number has the number for its value.
-/

open Float.Model.UnpackedFloat

namespace ZPlane

open Grammar Token

/-- Characters that a rule derives as an expression of at most `n` operations, and the number
    that it is evaluated to, without a trace in the workspace. -/
def Denotes (w : Workspace) (rule : Rule) (n : Nat) (cs : List Char) (z : Complex) : Prop :=
  ∃ ks e, Spells cs ks ∧ Derives rule ks e ∧ NestedWithin 128 0 ks ∧ e.size ≤ n ∧
    e.eval w = .ok (.number z) w

namespace Denotes

variable {w : Workspace} {m n : Nat} {cs ds : List Char} {u v z : Complex}

theorem loosen {rule rule' : Rule} (h : Denotes w rule n cs z) (hle : rule'.level ≤ rule.level) :
    Denotes w rule' n cs z := by
  rcases h with ⟨ks, e, hspells, hderives, hrest⟩
  exact ⟨ks, e, hspells, hderives.loosen hle, hrest⟩

theorem mono {rule : Rule} (h : Denotes w rule m cs z) (hle : m ≤ n) : Denotes w rule n cs z := by
  rcases h with ⟨ks, e, hspells, hderives, hnested, hsize, heval⟩
  exact ⟨ks, e, hspells, hderives, hnested, hsize.trans hle, heval⟩

/-- A minus sign in front subtracts from zero. -/
theorem negative (h : Denotes w .product n cs v) :
    Denotes w .sum (n + 1) ('-' :: cs) (.zero - v) := by
  rcases h with ⟨ks, e, hspells, hderives, hnested, hsize, heval⟩
  refine ⟨.minus :: ks, _, hspells.symbol rfl, .negative hderives, ?_, ?_, ?_⟩
  · rw [nestedWithin_cons_iff]
    exact ⟨Nat.zero_le _, hnested⟩
  · simp only [Expr.size]
    omega
  · exact Expr.eval_arith rfl heval rfl

/-- A sign between two operands adds or subtracts. -/
theorem binary {c : Char} {k : Kind} {a : Arith} (hl : Denotes w .sum m cs u)
    (hr : Denotes w .product n ds v) (hc : symbol? c = some k) (hjoin : Joins .sum k a)
    (hz : a.apply u v = .ok z) : Denotes w .sum (m + n + 1) (cs ++ c :: ds) z := by
  rcases hl with ⟨ks, e, hks, hkderives, hknested, hksize, hkeval⟩
  rcases hr with ⟨ls, f, hls, hlderives, hlnested, hlsize, hleval⟩
  refine ⟨ks ++ k :: ls, _, hks.append (breaks_of_symbol? hc ds) (hls.symbol hc),
    .binary hjoin hkderives hlderives, ?_, ?_, Expr.eval_arith hkeval hleval hz⟩
  · refine hkderives.nestedWithin_append hknested ?_
    rw [nestedWithin_cons_iff, hjoin.openAfter_eq]
    exact ⟨Nat.zero_le _, hlnested⟩
  · simp only [Expr.size]
    omega

/-- Characters that denote a number are a text with that value. -/
theorem evaluate_eq {text : String} (h : Denotes w .sum n text.toList z) (hn : n ≤ 512) :
    evaluate text w = .ok (.number z) w := by
  rcases h with ⟨ks, e, hspells, hderives, hnested, hsize, heval⟩
  have hbare := (hderives.assignFree (by simp)).bareTargets
  have hparse := parse_of_derives hspells (hderives.loosen (Nat.zero_le _)) hbare
    (hsize.trans hn) hnested
  exact evaluate_of_eval_ok hparse heval

end Denotes

section Parts

variable {w : Workspace} {x : Float}

/-- A numeral denotes its value. -/
theorem denotes_numeral {n : Numeral} (h : n.Digital) (hfinite : n.value.isFinite = true) :
    Denotes w .product 0 n.chars (.ofReal n.value) := by
  have hspells := Spells.numeral h hfinite n.stops_nil .nil
  rw [List.append_nil] at hspells
  have hderives : Derives .product [.number n.value] _ := (Derives.number _).loosen (by decide)
  exact ⟨_, _, hspells, hderives, nestedWithin_of_length_le (by simp), Nat.le_refl 0, rfl⟩

/-- The name of the imaginary unit denotes what it is bound to. -/
theorem eval_i (hi : w.environment.get? "i" = some (.number .i)) :
    (Expr.name "i").eval w = .ok (.number .i) w := by
  change Eval.lookup "i" w = _
  rw [Eval.lookup_eq, hi]

theorem spells_i : Spells ['i'] [.identifier "i"] := by
  have hname := Spells.name (x := "i") (by simp) (by simp)
  simpa using hname

theorem denotes_i (hi : w.environment.get? "i" = some (.number .i)) :
    Denotes w .product 0 ['i'] .i := by
  have hderives : Derives .product [.identifier "i"] _ := (Derives.name _).loosen (by decide)
  exact ⟨_, _, spells_i, hderives, nestedWithin_of_length_le (by simp), Nat.le_refl 0, eval_i hi⟩

/-- A numeral next to the imaginary unit denotes the product. -/
theorem denotes_numeral_i (hi : w.environment.get? "i" = some (.number .i)) {n : Numeral}
    (h : n.Digital) (hfinite : n.value.isFinite = true) :
    Denotes w .product 1 (n.chars ++ ['i']) (.ofReal n.value * .i) := by
  have hstops : n.Stops ['i'] := by
    rintro c ⟨⟩
    exact ⟨rfl, fun _ => by decide⟩
  have hspells := Spells.numeral h hfinite hstops spells_i
  have hleft : Derives .juxtaposition [.number n.value] _ := (Derives.number _).loosen (by decide)
  have hright : Derives .power [.identifier "i"] _ := (Derives.name _).loosen (by decide)
  have hatom : Grammar.IsAtom (.identifier "i") := trivial
  have hderives : Derives .product _ _ := (Derives.juxtaposed hatom hleft hright).loosen (by decide)
  exact ⟨_, _, hspells, hderives, nestedWithin_of_length_le (by simp), Nat.le_refl 1,
    Expr.eval_arith rfl (eval_i hi) rfl⟩

theorem Unsigned.ofReal_mul_i (h : Unsigned x) (hne : Nonzero x) :
    Complex.ofReal x * Complex.i = ⟨0, x⟩ := by
  have hre : x * 0 - 0 * 1 = 0 := by
    rw [h.mul_zero]
    rfl
  have him : x * 1 + 0 * 0 = x := by
    have hzero : (0 : Float) * 0 = 0 := rfl
    rw [hne.mul_one, hzero, hne.add_zero]
  change Complex.mk (x * 0 - 0 * 1) (x * 1 + 0 * 0) = _
  rw [hre, him]

/-- A positive coefficient with `i` behind it, or `i` alone, denotes the imaginary number. -/
theorem denotes_unitText (hi : w.environment.get? "i" = some (.number .i)) (h : Unsigned x)
    (hne : Nonzero x) : Denotes w .product 1 (Complex.unitText x).toList ⟨0, x⟩ := by
  unfold Complex.unitText
  by_cases hone : (x == 1) = true
  · have hx : x = 1 := Packing.eq_of_beq (n := 2 ^ 52) (q := -52) (h := by decide) rfl hone
    rw [if_pos hone, hx]
    exact (denotes_i hi).mono (by decide)
  · rcases Layout.exists_numeral_write h hne with ⟨n, hdigital, htext, rfl⟩
    rw [if_neg hone, String.toList_append, htext, ← h.ofReal_mul_i hne]
    exact denotes_numeral_i hi hdigital h.isFinite

/-- A positive float denotes itself. -/
theorem denotes_write (h : Unsigned x) (hne : Nonzero x) :
    Denotes w .product 0 (Layout.result.write x).toList (.ofReal x) := by
  rcases Layout.exists_numeral_write h hne with ⟨n, hdigital, htext, rfl⟩
  rw [htext]
  exact denotes_numeral hdigital h.isFinite

/-- A float other than zero denotes itself, also where a sign stands before it. -/
theorem denotes_real (hne : Nonzero x) :
    Denotes w .sum 1 (Layout.result.write x).toList (.ofReal x) := by
  rcases hne.unsigned_or_negative with ⟨h, -⟩ | ⟨n, q, hn, hx, h, -⟩
  · have hsum : Denotes w .sum 0 _ _ := (denotes_write h hne).loosen (by decide)
    exact hsum.mono (by decide)
  · have hvalue : Complex.zero - .ofReal (-x) = .ofReal x := by
      change Complex.mk (0 - -x) (0 - 0) = _
      rw [hne.zero_sub_neg]
      rfl
    rw [Layout.write_neg _ hx, String.toList_append, ← hvalue]
    exact (denotes_write h hne.neg).negative

end Parts

namespace Complex

variable {w : Workspace} {z : Complex}

/-- An imaginary part alone, with a sign before it only if it is negative. -/
theorem denotes_imaginaryText (hi : w.environment.get? "i" = some (.number .i))
    (hre : (z.re == 0) = true) (him : (z.im == 0) = false) (hne : Nonzero z.im) :
    Denotes w .sum 2 z.imaginaryText.toList ⟨0, z.im⟩ := by
  unfold imaginaryText
  rw [him, if_neg Bool.false_ne_true]
  rcases hne.unsigned_or_negative with ⟨h, hnot⟩ | ⟨n, q, hn, hx, h, hlt⟩
  · rw [if_neg hnot, if_pos hre]
    exact ((denotes_unitText hi h hne).loosen (by decide)).mono (by decide)
  · have hvalue : zero - ⟨0, -z.im⟩ = (⟨0, z.im⟩ : Complex) := by
      change mk (0 - 0) (0 - -z.im) = _
      rw [hne.zero_sub_neg]
      rfl
    rw [if_pos hlt, String.toList_append, ← hvalue]
    exact (denotes_unitText hi h hne.neg).negative

/-- An imaginary part behind a real one, with the sign that joins the two. -/
theorem denotes_append_imaginaryText (hi : w.environment.get? "i" = some (.number .i))
    (hre : (z.re == 0) = false) (him : (z.im == 0) = false) (hrne : Nonzero z.re)
    (hine : Nonzero z.im) :
    Denotes w .sum 3 ((Layout.result.write z.re).toList ++ z.imaginaryText.toList) z := by
  have hreal := denotes_real (w := w) hrne
  unfold imaginaryText
  rw [him, if_neg Bool.false_ne_true]
  rcases hine.unsigned_or_negative with ⟨h, hnot⟩ | ⟨n, q, hn, hx, h, hlt⟩
  · have hvalue : ofReal z.re + ⟨0, z.im⟩ = z := by
      change mk (z.re + 0) (0 + z.im) = z
      rw [hrne.add_zero, hine.zero_add]
    rw [if_neg hnot, hre, if_neg Bool.false_ne_true, String.toList_append]
    exact hreal.binary (denotes_unitText hi h hine) (c := '+') rfl .plus (congrArg _ hvalue)
  · have hvalue : ofReal z.re - ⟨0, -z.im⟩ = z := by
      change mk (z.re - 0) (0 - -z.im) = z
      rw [hrne.sub_zero, hine.zero_sub_neg]
    rw [if_pos hlt, String.toList_append]
    exact hreal.binary (denotes_unitText hi h hine.neg) (c := '-') rfl .minus (congrArg _ hvalue)

/-- The text of a number with finite parts is evaluated to a number that is equal to it,
    wherever `i` is the imaginary unit, and the evaluation leaves no trace. -/
theorem text_reads_back (hre : z.re.isFinite = true) (him : z.im.isFinite = true)
    (hi : w.environment.get? "i" = some (.number .i)) :
    ∃ v, evaluate z.text w = .ok (.number v) w ∧ (v == z) = true := by
  have hrself := beq_self_of_isFinite hre
  have hiself := beq_self_of_isFinite him
  unfold text isZero realText
  -- A part that is zero is not written, unless both are, and comes out as the zero without a
  -- sign. It is equal to the part, and the other part comes out as it is.
  cases hrzero : z.re == 0 with
  | true =>
    cases hizero : z.im == 0 with
    | true =>
      have hzero : Denotes w .product 0 ['0'] (.ofReal 0) :=
        denotes_numeral (n := ⟨['0'], none⟩) ⟨by simp, by simp, by simp⟩ (by decide)
      refine ⟨.ofReal 0, ?_, ?_⟩
      · have hsum : Denotes w .sum 0 "0".toList (.ofReal 0) := hzero.loosen (by decide)
        exact hsum.evaluate_eq (by decide)
      · exact Bool.and_eq_true_iff.mpr ⟨beq_symm hrzero, beq_symm hizero⟩
    | false =>
      refine ⟨⟨0, z.im⟩, ?_, Bool.and_eq_true_iff.mpr ⟨beq_symm hrzero, hiself⟩⟩
      have himaginary := denotes_imaginaryText hi hrzero hizero (nonzero_of_isFinite him hizero)
      exact Denotes.evaluate_eq (by simpa using himaginary) (by decide)
  | false =>
    have hrne := nonzero_of_isFinite hre hrzero
    cases hizero : z.im == 0 with
    | true =>
      refine ⟨.ofReal z.re, ?_, Bool.and_eq_true_iff.mpr ⟨hrself, beq_symm hizero⟩⟩
      have hreal := denotes_real (w := w) hrne
      exact Denotes.evaluate_eq (by simpa [imaginaryText, hizero] using hreal) (by decide)
    | false =>
      refine ⟨z, ?_, Bool.and_eq_true_iff.mpr ⟨hrself, hiself⟩⟩
      have hboth := denotes_append_imaginaryText hi hrzero hizero hrne
        (nonzero_of_isFinite him hizero)
      exact Denotes.evaluate_eq (by simpa using hboth) (by decide)

/-- Both parts negative, and neither of them a short sum of powers of two. -/
theorem text_reads_back_negative :
    (⟨-2.1, -1e-7⟩ : Complex).re.isFinite = true ∧ (⟨-2.1, -1e-7⟩ : Complex).im.isFinite = true ∧
      Workspace.standard.environment.get? "i" = some (.number .i) ∧
      ∃ v, evaluate (⟨-2.1, -1e-7⟩ : Complex).text Workspace.standard =
        .ok (.number v) Workspace.standard ∧ (v == ⟨-2.1, -1e-7⟩) = true := by
  have hi : Workspace.standard.environment.get? "i" = some (.number .i) := by
    rfl
  exact ⟨by decide, by decide, hi, text_reads_back (by decide) (by decide) hi⟩

end Complex

end ZPlane
