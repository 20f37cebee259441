import ZPlane.Decimal.Basic
import ZPlane.Token.Basic

/-!
# Scanning

Source text is cut into tokens from left to right, each as long as possible.
Blanks separate tokens and are dropped. A numeral is a run of digits with at
most one point, which may end it but not start it, and a name is a run of
letters; all letters and digits are ASCII.

Scanning fails at the first character that starts no token, or at the first
numeral that is too large for a float.

## Main definitions

* `ScanError`: A failure of scanning with its column.
* `Numeral`: The digits of a numeral before and after its point.
* `Token.scanFrom`: The tokens of a list of characters from a given column on.
* `Token.scan`: The tokens of a text.

## Theorems

* `Numeral.length_drop_le`: What follows a numeral is no longer than what it was
  taken from.
* `Numeral.chars_take_append_drop`: Taking a numeral off loses nothing.
-/

namespace ZPlane

/-- Why a text could not be cut into tokens. -/
inductive ScanError.Cause
  | unexpectedCharacter (c : Char)
  | invalidNumber (lexeme : String)
deriving DecidableEq

/-- A failure of scanning, at the column where the token would start. -/
structure ScanError where
  column : Nat
  cause : ScanError.Cause
deriving DecidableEq

namespace ScanError

/-- The wording of a cause. -/
def Cause.message : Cause → String
  | .unexpectedCharacter c => s!"Unexpected character '{c}'"
  | .invalidNumber lexeme => s!"Invalid number literal '{lexeme}'"

/-- The wording of a failure. -/
def message (e : ScanError) : String :=
  s!"column {e.column}: " ++ e.cause.message

end ScanError

/-- A numeral: its digits before the point and, if it has a point, the digits
    after it. -/
structure Numeral where
  whole : List Char
  fraction : Option (List Char)

namespace Numeral

/-- The characters that spell the numeral. -/
def chars (n : Numeral) : List Char :=
  match n.fraction with
  | none => n.whole
  | some digits => n.whole ++ '.' :: digits

/-- The float that the numeral denotes. -/
def value (n : Numeral) : Float :=
  (Decimal.ofDigits n.whole (n.fraction.getD [])).toFloat

/-- The longest numeral that starts with the digit `c` and goes on in `cs`. -/
def take (c : Char) (cs : List Char) : Numeral :=
  ⟨c :: cs.takeWhile Char.isDigit,
    match cs.dropWhile Char.isDigit with
    | '.' :: rest => some (rest.takeWhile Char.isDigit)
    | _ => none⟩

/-- What follows the longest numeral that goes on in `cs`. -/
def drop (cs : List Char) : List Char :=
  match cs.dropWhile Char.isDigit with
  | '.' :: rest => rest.dropWhile Char.isDigit
  | rest => rest

theorem length_drop_le (cs : List Char) : (drop cs).length ≤ cs.length := by
  have hdrop : ∀ l : List Char, (l.dropWhile Char.isDigit).length ≤ l.length :=
    fun l => (l.dropWhile_sublist _).length_le
  unfold drop
  split
  · next rest h =>
    have h1 := hdrop cs
    have h2 := hdrop rest
    rw [h] at h1
    simp only [List.length_cons] at h1
    omega
  · exact hdrop cs

/-- Taking a numeral off loses nothing. -/
theorem chars_take_append_drop (c : Char) (cs : List Char) :
    (take c cs).chars ++ drop cs = c :: cs := by
  have hsplit := cs.takeWhile_append_dropWhile (p := Char.isDigit)
  unfold take drop
  generalize cs.dropWhile Char.isDigit = rest at hsplit ⊢
  cases rest with
  | nil => simpa [chars] using hsplit
  | cons d rest =>
    by_cases hd : d = '.'
    · subst hd
      simpa [chars] using hsplit
    · simpa [chars, hd] using hsplit

end Numeral

namespace Token

/-- Whether a character separates tokens. -/
def isBlank (c : Char) : Bool :=
  c == ' ' || c == '\t' || c == '\r' || c == '\n'

/-- The token that a character is on its own. -/
def symbol? : Char → Option Kind
  | '(' => some .leftParen
  | ')' => some .rightParen
  | '+' => some .plus
  | '-' => some .minus
  | '*' => some .star
  | '/' => some .slash
  | '^' => some .caret
  | '=' => some .equal
  | _ => none

/-- The tokens of a list of characters, the first of which stands at
    `column`. -/
def scanFrom (column : Nat) : List Char → Except ScanError (List Token)
  | [] => .ok [⟨.endOfText, "", column⟩]
  | c :: cs =>
    if isBlank c then
      scanFrom (column + 1) cs
    else if c.isAlpha then
      let lexeme := c :: cs.takeWhile Char.isAlpha
      let name := String.ofList lexeme
      (⟨.identifier name, name, column⟩ :: ·) <$>
        scanFrom (column + lexeme.length) (cs.dropWhile Char.isAlpha)
    else if c.isDigit then
      let numeral := Numeral.take c cs
      let lexeme := String.ofList numeral.chars
      if numeral.value.isFinite then
        (⟨.number numeral.value, lexeme, column⟩ :: ·) <$>
          scanFrom (column + numeral.chars.length) (Numeral.drop cs)
      else
        .error ⟨column, .invalidNumber lexeme⟩
    else
      match symbol? c with
      | some kind => (⟨kind, c.toString, column⟩ :: ·) <$> scanFrom (column + 1) cs
      | none => .error ⟨column, .unexpectedCharacter c⟩
termination_by cs => cs.length
decreasing_by
  · simp only [List.length_cons]; omega
  · have := (cs.dropWhile_sublist Char.isAlpha).length_le
    simp only [List.length_cons]; omega
  · have := Numeral.length_drop_le cs
    simp only [List.length_cons]; omega
  · simp only [List.length_cons]; omega

/-- The tokens of a text. -/
def scan (text : String) : Except ScanError (List Token) :=
  scanFrom 1 text.toList

end Token

end ZPlane
