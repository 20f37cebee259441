/-!
# Tokens

A token is a piece of source text: what it is, the characters it is made of,
and the column it starts at. Columns count characters from one.

The end of the text is a token too, with no characters, one column past the
last one. A reader of tokens can then report that the text ended early in the
same way as any other misplaced token.

## Main definitions

* `Token.Kind`: What a token is.
* `Token`: A token with its lexeme and column.
-/

namespace ZPlane

/-- What a token is. -/
inductive Token.Kind
  | leftParen
  | rightParen
  | plus
  | minus
  | star
  | slash
  | caret
  | equal
  | identifier (name : String)
  | number (value : Float)
  | endOfText
deriving DecidableEq

/-- A token with the characters it is made of and the column it starts at. -/
structure Token where
  kind : Token.Kind
  lexeme : String
  column : Nat
deriving DecidableEq

end ZPlane
