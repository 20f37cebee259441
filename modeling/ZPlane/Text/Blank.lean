/-!
# White Space

White space is the Unicode property of that name: the separators of lines,
paragraphs and words, and the control characters that act like them. It is a
wider class than the blanks between tokens. A zero width space and a byte order
mark do not belong to it.

## Main definitions

* `Text.isWhiteSpace`: Whether a character is white space.
* `Text.trimChars`, `Text.trim`: A text without white space at its ends.
* `Text.isBlank`: Whether a text holds nothing else.
-/

namespace ZPlane

namespace Text

/-- The ranges of the Unicode property `White_Space`, each from its first to its
    last code point. -/
def whiteSpaceRanges : List (Nat × Nat) :=
  [(0x0009, 0x000D), (0x0020, 0x0020), (0x0085, 0x0085), (0x00A0, 0x00A0), (0x1680, 0x1680),
    (0x2000, 0x200A), (0x2028, 0x2029), (0x202F, 0x202F), (0x205F, 0x205F), (0x3000, 0x3000)]

/-- Whether a character is white space. -/
def isWhiteSpace (c : Char) : Bool :=
  whiteSpaceRanges.any fun (first, last) => first ≤ c.toNat && c.toNat ≤ last

/-- The characters without white space at either end. -/
def trimChars (cs : List Char) : List Char :=
  ((cs.dropWhile isWhiteSpace).reverse.dropWhile isWhiteSpace).reverse

/-- The text without white space at either end. -/
def trim (text : String) : String :=
  String.ofList (trimChars text.toList)

/-- Whether a text is white space only. -/
def isBlank (text : String) : Bool :=
  text.toList.all isWhiteSpace

end Text

end ZPlane
