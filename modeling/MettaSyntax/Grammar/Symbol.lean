import MettaSyntax.Token.Basic

/-! # Symbols of the grammar

The symbols with their numbers and names, and which of them a reader of the tree gets to see:
`expressions` and `arguments` are hidden, for they only chain elements together, and so is the
symbol of a run of skipped tokens.  A symbol without a name in the grammar's own words, such as a
parenthesis, is anonymous. -/

set_option autoImplicit false

namespace MettaSyntax

/-- What the grammar builds out of tokens. -/
inductive Nonterminal where
  | sourceFile
  | expressions
  | list
  | arguments
  | atom
  deriving DecidableEq

inductive Symbol where
  | token (kind : TokenKind)
  | nonterminal (kind : Nonterminal)
  | error
  | skipped
  deriving DecidableEq

/-- The symbol of a token: a stretch that cannot be read is an error. -/
def TokenKind.toSymbol : TokenKind → Symbol
  | .unlexable => .error
  | k => .token k

namespace Symbol

/-- The symbols that the grammar numbers itself, in the order of their numbers. -/
def numbered : List Symbol :=
  [.token .ending, .token .opening, .token .closing, .token (.atom .symbol),
    .token (.atom .variable), .token (.atom .string), .token (.atom .number), .token .comment,
    .nonterminal .sourceFile, .nonterminal .expressions, .nonterminal .list,
    .nonterminal .arguments, .nonterminal .atom]

/-- The number of the error symbol, the greatest of sixteen bits. -/
def errorId : Nat := 65535

def skippedId : Nat := 65534

def name : Symbol → String
  | .token .ending => "end"
  | .token .opening => "("
  | .token .closing => ")"
  | .token (.atom .symbol) => "symbol"
  | .token (.atom .variable) => "variable"
  | .token (.atom .string) => "string"
  | .token (.atom .number) => "number"
  | .token .comment => "comment"
  | .token .unlexable => "ERROR"
  | .nonterminal .sourceFile => "source_file"
  | .nonterminal .expressions => "_expressions"
  | .nonterminal .list => "list"
  | .nonterminal .arguments => "_arguments"
  | .nonterminal .atom => "atom"
  | .error => "ERROR"
  | .skipped => "_ERROR"

/-- Whether a reader of the tree sees nodes of this symbol. -/
def visible : Symbol → Bool
  | .token .ending => false
  | .nonterminal .expressions => false
  | .nonterminal .arguments => false
  | .skipped => false
  | _ => true

/-- Whether the grammar names the symbol, or only spells it. -/
def named : Symbol → Bool
  | .token .opening => false
  | .token .closing => false
  | _ => true

end Symbol

end MettaSyntax
