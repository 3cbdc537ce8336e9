import MettaSyntax.Highlight.Pattern
import MettaSyntax.Outline.Definition

/-! # The highlighting query

The rules that tell how the nodes of a tree are to be highlighted, in the order in which their
captures are numbered, and the same rules written out for editors.  A rule is a pattern, of which
only those matches count in which a captured node has one of certain texts. -/

set_option autoImplicit false

namespace MettaSyntax

/-- A pattern, and the texts that it allows the nodes under one of its captures. -/
structure HighlightRule where
  pattern : Pattern
  allowed : Option (String × List String)

namespace HighlightRule

/-- Whether the captures of a match have texts that the rule allows. -/
def admits (rule : HighlightRule) (text : List Char) (found : List Capture) : Bool :=
  rule.allowed.all fun (name, texts) =>
    found.all fun (capture, t) =>
      capture ≠ name || (t.text? text).any fun cs => texts.any (·.toList = cs)

def captures (rule : HighlightRule) (text : List Char) (root : Tree) : List Capture :=
  root.preorder.flatMap fun c =>
    ((rule.pattern.matchAt c).filter (rule.admits text)).flatten

end HighlightRule

namespace Highlight

/-- A token that is captured as it stands. -/
def leaf (kind : TokenKind) (capture : String) : Pattern :=
  .node (.token kind) (some capture) []

def symbolAtom (capture : String) : Pattern :=
  .node (.nonterminal .atom) none [(none, leaf (.atom .symbol) capture)]

/-- A list headed by a symbol, with other children. -/
def listHeadedBy (capture : String) (more : List (Option Field × Pattern)) : Pattern :=
  .node (.nonterminal .list) none ((some .head, symbolAtom capture) :: more)

/-- The rules, in the order of the query. -/
def rules : List HighlightRule :=
  [⟨leaf .comment "comment", none⟩,
    ⟨leaf (.atom .string) "string", none⟩,
    ⟨leaf (.atom .number) "number", none⟩,
    ⟨leaf (.atom .variable) "variable", none⟩,
    ⟨leaf (.atom .symbol) "boolean", some ("boolean", ["True", "False"])⟩,
    ⟨leaf (.atom .symbol) "keyword",
      some ("keyword",
        ["if", "let", "let*", "match", "case", "collapse", "superpose", "empty", "Error"])⟩,
    ⟨leaf (.atom .symbol) "constant", some ("constant", ["Cons", "Nil"])⟩,
    ⟨listHeadedBy "operator" [], some ("operator", ["=", ":", "->"])⟩,
    ⟨listHeadedBy "operator" [(some .argument, listHeadedBy "function.definition" [])],
      some ("operator", ["="])⟩,
    ⟨listHeadedBy "function.call" [], none⟩,
    ⟨leaf (.atom .symbol) "symbol", none⟩,
    ⟨leaf .opening "punctuation.bracket", none⟩,
    ⟨leaf .closing "punctuation.bracket", none⟩]

/-- The names of the captures, each where it first appears. -/
def captureNames : List String :=
  (rules.flatMap (·.pattern.captureNames)).eraseDups

def captureIndex (name : String) : Nat :=
  captureNames.idxOf name

def captures (text : List Char) (root : Tree) : List Capture :=
  rules.flatMap (·.captures text root)

/-- The query as editors read it. -/
def queryText : String :=
  "(comment) @comment\n" ++
  "\n" ++
  "(string) @string\n" ++
  "\n" ++
  "(number) @number\n" ++
  "\n" ++
  "(variable) @variable\n" ++
  "\n" ++
  "((symbol) @boolean\n" ++
  "  (#any-of? @boolean \"True\" \"False\"))\n" ++
  "\n" ++
  "((symbol) @keyword\n" ++
  "  (#any-of? @keyword\n" ++
  "    \"if\" \"let\" \"let*\" \"match\" \"case\" \"collapse\" \"superpose\" \"empty\" \"Error\"))\n" ++
  "\n" ++
  "((symbol) @constant\n" ++
  "  (#any-of? @constant \"Cons\" \"Nil\"))\n" ++
  "\n" ++
  "(list\n" ++
  "  head: (atom (symbol) @operator)\n" ++
  "  (#any-of? @operator \"=\" \":\" \"->\"))\n" ++
  "\n" ++
  "(list\n" ++
  "  head: (atom (symbol) @operator)\n" ++
  "  argument: (list\n" ++
  "    head: (atom (symbol) @function.definition))\n" ++
  "  (#eq? @operator \"=\"))\n" ++
  "\n" ++
  "(list\n" ++
  "  head: (atom (symbol) @function.call))\n" ++
  "\n" ++
  "(symbol) @symbol\n" ++
  "\n" ++
  "[\"(\" \")\"] @punctuation.bracket\n"

end Highlight

end MettaSyntax
