import ZPlane.Complex.Basic
import ZPlane.Decimal.Basic
import ZPlane.Text.Blank

/-!
# A Reader of the Shading Language

The part of the shading language that a sum or a product is written in: vectors by
their parts, parts of a vector, float literals, names, sums, products and
parentheses. The reader evaluates a text as it reads it. It stops at the first thing
that does not belong there, and where a float and a vector would be joined.

A reader takes a quantity off the front of a list of characters and leaves the rest.
Only what stands in parentheses leads back to the start, so the readers are built on
one another and a text that is nested `n` deep needs `n` rounds. `Shading.expression`
counts them, and a text cannot be nested deeper than it is long.

## Main definitions

* `Shading.Quantity`: A float or a vector.
* `Shading.float?`: The float that a literal denotes.
* `Shading.primary`, `Shading.part`, `Shading.product`, `Shading.expression`: The
  readers, from the tightest to the loosest.
* `Shading.evaluate`: The quantity that a whole text denotes.
-/

namespace ZPlane

namespace Shading

/-- A quantity of the shading language. -/
inductive Quantity
  | float (x : Float)
  | vec2 (x y : Float)
deriving DecidableEq

/-- An operation part by part. A float and a vector are not joined. -/
def Quantity.combine (f : Float → Float → Float) : Quantity → Quantity → Option Quantity
  | .float a, .float b => some (.float (f a b))
  | .vec2 a b, .vec2 c d => some (.vec2 (f a c) (f b d))
  | _, _ => none

/-- The number that a run of digits denotes. -/
def digits? (cs : List Char) : Option Nat :=
  if cs ≠ [] ∧ cs.all Char.isDigit then some (Nat.ofDigitChars 10 cs 0) else none

/-- The number that digits with an optional sign denote. -/
def integer? : List Char → Option Int
  | '-' :: cs => (digits? cs).map fun n : Nat => -(n : Int)
  | '+' :: cs => (digits? cs).map fun n : Nat => (n : Int)
  | cs => (digits? cs).map fun n : Nat => (n : Int)

/-- The float that a literal denotes. Digits alone are an integer and no float, so a
    literal has a point or an exponent. -/
def float? (cs : List Char) : Option Float := do
  let mantissa := cs.takeWhile (· ≠ 'e')
  let whole := mantissa.takeWhile (· ≠ '.')
  let fraction := (mantissa.dropWhile (· ≠ '.')).drop 1
  let digits ← digits? (whole ++ fraction)
  match cs.dropWhile (· ≠ 'e') with
  | [] =>
    if '.' ∈ mantissa then some (Decimal.toFloat ⟨digits, -fraction.length⟩) else none
  | _ :: exponent => do
    let power ← integer? exponent
    some (Decimal.toFloat ⟨digits, power - fraction.length⟩)

/-- The characters of a literal and what follows them. A sign belongs to the literal
    right after the mark of the exponent. -/
def takeLiteral (marked : Bool) : List Char → List Char × List Char
  | [] => ([], [])
  | c :: cs =>
    if c.isDigit || c == '.' || c == 'e' || (marked && (c == '-' || c == '+')) then
      let (literal, rest) := takeLiteral (c == 'e') cs
      (c :: literal, rest)
    else
      ([], c :: cs)

/-- Takes a quantity off the front, and leaves the rest. -/
abbrev Reader : Type :=
  List Char → Option (Quantity × List Char)

/-- What follows white space. -/
def skip (cs : List Char) : List Char :=
  cs.dropWhile Text.isWhiteSpace

/-- What follows a character, which may have white space before it. -/
def eat (c : Char) (cs : List Char) : Option (List Char) :=
  match skip cs with
  | d :: rest => if d = c then some rest else none
  | [] => none

/-- A vector by its parts, from its first parenthesis on. -/
def vector (inner : Reader) : Reader := fun cs => do
  let cs ← eat '(' cs
  match ← inner cs with
  | (.float x, cs) => do
    let cs ← eat ',' cs
    match ← inner cs with
    | (.float y, cs) => do
      let cs ← eat ')' cs
      some (.vec2 x y, cs)
    | (.vec2 _ _, _) => none
  | (.vec2 _ _, _) => none

/-- A name, which stands for the vector of its number, or a vector by its parts. -/
def word (names : String → Option Complex) (inner : Reader) : Reader := fun cs =>
  let name := String.ofList (cs.takeWhile Char.isAlphanum)
  let rest := cs.dropWhile Char.isAlphanum
  if name = "vec2" then vector inner rest
  else (names name).map fun z => (.vec2 z.re z.im, rest)

/-- What needs no operator: parentheses, a literal, a name or a vector. -/
def primary (names : String → Option Complex) (inner : Reader) : Reader := fun cs =>
  match skip cs with
  | [] => none
  | c :: rest =>
    if c = '(' then do
      let (v, rest) ← inner rest
      let rest ← eat ')' rest
      some (v, rest)
    else if c.isDigit then do
      let (literal, rest) := takeLiteral false (c :: rest)
      let x ← float? literal
      some (.float x, rest)
    else if c.isAlpha then
      word names inner (c :: rest)
    else
      none

/-- A primary, or the part of one behind a point. -/
def part (names : String → Option Complex) (inner : Reader) : Reader := fun cs => do
  let (v, rest) ← primary names inner cs
  match eat '.' rest with
  | none => some (v, rest)
  | some rest =>
    match v, rest with
    | .vec2 x _, 'x' :: rest => some (.float x, rest)
    | .vec2 _ y, 'y' :: rest => some (.float y, rest)
    | _, _ => none

/-- Joins operands to a quantity from left to right, as long as an operator stands
    before the next one, and at most `n` times. -/
def joinMore (op : Char → Option (Float → Float → Float)) (operand : Reader) :
    Nat → Quantity → Reader
  | 0, v, cs => some (v, cs)
  | n + 1, v, cs =>
    match skip cs with
    | [] => some (v, cs)
    | c :: rest =>
      match op c with
      | none => some (v, cs)
      | some f => do
        let (w, rest) ← operand rest
        let u ← v.combine f w
        joinMore op operand n u rest

/-- One operand, or several joined from left to right. There are no more of them than
    characters. -/
def join (op : Char → Option (Float → Float → Float)) (operand : Reader) : Reader := fun cs => do
  let (v, rest) ← operand cs
  joinMore op operand rest.length v rest

/-- The operators of a product. -/
def productOperator : Char → Option (Float → Float → Float)
  | '*' => some (· * ·)
  | _ => none

/-- The operators of a sum. -/
def sumOperator : Char → Option (Float → Float → Float)
  | '+' => some (· + ·)
  | '-' => some (· - ·)
  | _ => none

/-- Parts joined to a product. -/
def product (names : String → Option Complex) (inner : Reader) : Reader :=
  join productOperator (part names inner)

/-- Products joined to a sum, with parentheses nested less than `depth` deep. -/
def expression (names : String → Option Complex) : Nat → Reader
  | 0 => fun _ => none
  | depth + 1 => join sumOperator (product names (expression names depth))

/-- The quantity that a whole text denotes, where each name stands for the vector of
    its number. -/
def evaluate (names : String → Option Complex) (text : String) : Option Quantity := do
  let (v, rest) ← expression names (text.toList.length + 1) text.toList
  if skip rest = [] then some v else none

end Shading

end ZPlane
