import ZPlane.Text.Blank

/-!
# Lines

A line ends with its line feed, so a text is cut after each one. What is left
after the last line feed is a line too, unless it is empty. The cut is the same
for characters and for bytes, since the byte of a line feed occurs in no other
character's encoding.

A line is handed on without its end, which is a line feed or a carriage return
and a line feed. A carriage return elsewhere belongs to the line.

## Main definitions

* `Text.cutAfter`: Cuts a list after each element of a kind.
* `Text.lines`: The lines of a text.
* `Text.contentLines`: The lines of a text that are not blank.
* `Text.decode`: The text that bytes encode.

## Theorems

* `Text.flatten_cutAfter`: Cutting loses nothing.
-/

namespace ZPlane

namespace Text

/-- Puts an element in front of pieces. An element that ends a piece is a piece
    of its own there, and any other one belongs to the first piece. -/
def extendPieces {α : Type} (ends : α → Bool) (a : α) : List (List α) → List (List α)
  | [] => [[a]]
  | piece :: pieces => if ends a then [a] :: piece :: pieces else (a :: piece) :: pieces

/-- Cuts a list after each element that satisfies `ends`. No piece is empty. -/
def cutAfter {α : Type} (ends : α → Bool) (l : List α) : List (List α) :=
  l.foldr (extendPieces ends) []

/-- A line without its end. -/
def dropLineEnd (line : List Char) : List Char :=
  match line.reverse with
  | '\n' :: '\r' :: rest => rest.reverse
  | '\n' :: rest => rest.reverse
  | _ => line

/-- The lines of a text without their ends. -/
def lines (text : String) : List String :=
  (cutAfter (· == '\n') text.toList).map fun line => String.ofList (dropLineEnd line)

/-- The lines of a text that are not blank. -/
def contentLines (text : String) : List String :=
  (lines text).filter fun line => !isBlank line

/-- Cuts bytes after each line feed. -/
def byteLines (bytes : List UInt8) : List (List UInt8) :=
  cutAfter (· == 10) bytes

/-- The text that bytes encode in UTF-8, if they do. -/
def decode (bytes : List UInt8) : Option String :=
  String.fromUTF8? ⟨bytes.toArray⟩

/-- Cutting loses nothing. -/
theorem flatten_cutAfter {α : Type} (ends : α → Bool) (l : List α) :
    (cutAfter ends l).flatten = l := by
  induction l with
  | nil => rfl
  | cons a l ih =>
    have hcons : cutAfter ends (a :: l) = extendPieces ends a (cutAfter ends l) := rfl
    rw [hcons]
    cases hl : cutAfter ends l with
    | nil =>
      rw [hl] at ih
      simp [extendPieces, ← ih]
    | cons piece pieces =>
      rw [hl] at ih
      by_cases h : ends a <;> simp [extendPieces, h, ← ih]

end Text

end ZPlane
