import MettaSyntax.Text.Position

/-! # Tokens

The kinds of token that a text falls into and a token as a kind at a place.  The token `ending`
stands for the end of the text, and `unlexable` for a stretch in which no token can be read. -/

set_option autoImplicit false

namespace MettaSyntax

inductive AtomKind where
  | symbol
  | variable
  | string
  | number
  deriving DecidableEq

inductive TokenKind where
  | ending
  | opening
  | closing
  | atom (kind : AtomKind)
  | comment
  | unlexable
  deriving DecidableEq

/-- The kinds of token that the grammar speaks of, in the order in which it numbers them.  The
comment is left out, since it may stand anywhere. -/
def TokenKind.structural : List TokenKind :=
  [.ending, .opening, .closing, .atom .symbol, .atom .variable, .atom .string, .atom .number]

structure Token where
  kind : TokenKind
  span : Span
  deriving DecidableEq

end MettaSyntax
