import ZPlane.Decimal.Shortest

/-!
# Text of Floats

A float is written as its sign, then the shortest decimal that reads back,
laid out either positionally or with an exponent. A `Layout` says where one
form ends and the other starts, so that each kind of output fixes its choice
in one value.

Two layouts are in use. A result is written positionally whatever its size,
and an integral one has no point. A shader literal always has a point or an
exponent, since a digit run alone would be an integer there, and it goes over
to an exponent for values that would need many zeros.

## Main definitions

* `Layout`: Which values are written positionally, and how integral ones end.
* `Layout.result`: The layout of results.
* `Layout.literal`: The layout of shader literals.
* `Decimal.positional`: A decimal without an exponent.
* `Decimal.scientific`: A decimal with an exponent.
* `Layout.write`: A float in a layout.
-/

namespace ZPlane

/-- How a decimal is laid out. -/
structure Layout where
  /-- Whether a value whose leading digit stands at this power of ten is
      written without an exponent. -/
  positional : Int → Bool
  /-- Whether an integral value written positionally ends in `.0`. -/
  pointed : Bool

namespace Layout

/-- Results never have an exponent, and integral ones have no point. -/
def result : Layout :=
  ⟨fun _ => true, false⟩

/-- Shader literals have an exponent from `10 ^ 16` on and below `10 ^ (-4)`,
    and otherwise always a point. -/
def literal : Layout :=
  ⟨fun place => -4 ≤ place && place < 16, true⟩

end Layout

namespace Decimal

/-- The whole part of a decimal in positional form. -/
def whole (d : Decimal) : List Char :=
  if 0 ≤ d.exponent then
    d.digitChars ++ List.replicate d.exponent.toNat '0'
  else
    let kept := d.digitChars.take (d.digitChars.length - (-d.exponent).toNat)
    if kept.isEmpty then ['0'] else kept

/-- The digits after the point of a decimal in positional form. -/
def fraction (d : Decimal) : List Char :=
  if 0 ≤ d.exponent then
    []
  else
    let places := (-d.exponent).toNat
    List.replicate (places - d.digitChars.length) '0' ++
      d.digitChars.drop (d.digitChars.length - places)

/-- The decimal without an exponent. An integral one ends in `.0` if `pointed`
    and has no point otherwise. -/
def positional (d : Decimal) (pointed : Bool) : List Char :=
  match d.fraction with
  | [] => if pointed then d.whole ++ ['.', '0'] else d.whole
  | fraction => d.whole ++ '.' :: fraction

/-- A digit string with its first digit before the point, and an exponent. -/
def scientific (digitChars : List Char) (place : Int) : List Char :=
  let mantissa :=
    match digitChars with
    | [] => []
    | [c] => [c]
    | c :: rest => c :: '.' :: rest
  mantissa ++ 'e' :: (toString place).toList

end Decimal

/-- The sign of a number as it is written. -/
def signText : Float.Model.UnpackedFloat.Sign → String
  | .negative => "-"
  | .positive => ""

namespace Layout

/-- A decimal in the form that the layout chooses for it. -/
def decimal (l : Layout) (d : Decimal) : String :=
  String.ofList <|
    if l.positional d.place then d.positional l.pointed
    else Decimal.scientific d.digitChars d.place

/-- A float in the given layout. -/
def write (l : Layout) (x : Float) : String :=
  match x.toModel.unpack with
  | .notANumber => "NaN"
  | .infinity sign => signText sign ++ "inf"
  | .zero sign => signText sign ++ l.decimal ⟨0, 0⟩
  | .finite sign mantissa exponent _ =>
    signText sign ++ l.decimal ((Decimal.exact mantissa exponent).shortest x.abs)

end Layout

end ZPlane
