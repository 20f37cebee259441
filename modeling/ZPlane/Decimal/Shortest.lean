import ZPlane.Decimal.Basic

/-!
# The Shortest Decimal That Reads Back

A float is printed with as few digits as identify it. The search walks up the
number of digits, and at each number looks at the two decimals of that many
digits on either side of the exact value, the nearer one first. The first of
them that reads back to the float wins.

The test is the reader itself, so whatever the search finds reads back by
construction. It ends at the exact decimal at the latest, where the lower
neighbour is the value.

Looking at the two neighbours is enough: the reader is monotone, so if any
decimal of some length reads back, then so does a neighbour of the exact value
on the same grid.

## Main definitions

* `Decimal.neighbours`: The two decimals with fewer digits around a decimal,
  nearer first.
* `Decimal.shortest`: The shortest decimal that reads back.
-/

namespace ZPlane

namespace Decimal

/-- The two decimals below and above `d` that do without its last `dropped`
    digits, the nearer one first. Halfway between them the upper one comes first.
    With nothing dropped, `d` is its own lower neighbour. -/
def neighbours (d : Decimal) (dropped : Nat) : List Decimal :=
  let unit := Nat.pow 10 dropped
  let lower : Decimal := ⟨d.digits / unit, d.exponent + dropped⟩
  let upper : Decimal := ⟨d.digits / unit + 1, d.exponent + dropped⟩
  if 2 * (d.digits % unit) < unit then [lower.trim, upper.trim] else [upper.trim, lower.trim]

/-- The decimal with the fewest digits that reads back to `x`, where `d` is the
    exact value of `x`. Of two such decimals it is the nearer one. -/
def shortest (d : Decimal) (x : Float) : Decimal :=
  let length := d.digitChars.length
  ((List.range length).findSome? fun n =>
    (d.neighbours (length - 1 - n)).find? fun c => c.toFloat == x).getD d

end Decimal

end ZPlane
