import MettaSyntax.Highlight.Query

/-! # Semantic tokens

The captures of the highlighting query as an editor takes them: in the order of the text, each by
its distance from the one before, its length in bytes, and its type.  Where several captures begin
at one place the one with the smallest number counts.  A capture that is empty or runs over the end
of a line is left out. -/

set_option autoImplicit false

namespace MettaSyntax

/-- A token relative to the one before it: the rows between their starts, the columns between their
starts or, on a new row, before its own, its length and its type. -/
structure SemanticToken where
  deltaLine : Nat
  deltaStart : Nat
  length : Nat
  type : Nat
  deriving DecidableEq

namespace SemanticToken

/-- The names of the token types; a type is the index of its name. -/
def typeNames : List String :=
  ["comment", "string", "keyword", "number", "operator", "variable", "function", "regexp", "type",
    "boolean", "punctuation", "parameter", "property"]

def typeOf? (capture : String) : Option Nat :=
  match capture with
  | "comment" => some 0
  | "string" => some 1
  | "keyword" => some 2
  | "number" => some 3
  | "operator" => some 4
  | "variable" => some 5
  | "symbol" => some 5
  | "function.call" => some 6
  | "function.definition" => some 6
  | "boolean" => some 9
  | "punctuation.bracket" => some 10
  | "parameter" => some 11
  | "constant" => some 12
  | _ => none

end SemanticToken

/-- A capture that may become a token. -/
structure HighlightSpan where
  start : Position
  length : Nat
  index : Nat
  type : Nat
  deriving DecidableEq

namespace HighlightSpan

/-- The highlight of a captured node, if it has a type, lies on one row and is not empty. -/
def of? (capture : Capture) : Option HighlightSpan := do
  let type ← SemanticToken.typeOf? capture.1
  let span := capture.2.span
  if span.start.row = span.stop.row ∧ span.start.column < span.stop.column then
    some ⟨span.start, span.stop.column - span.start.column, Highlight.captureIndex capture.1, type⟩
  else none

/-- Whether a highlight may stand before another: by place, and at one place by number. -/
def le (a b : HighlightSpan) : Bool :=
  a.start.before b.start || (!b.start.before a.start && decide (a.index ≤ b.index))

def all (text : List Char) (root : Tree) : List HighlightSpan :=
  ((Highlight.captures text root).filterMap of?).mergeSort le

end HighlightSpan

namespace SemanticToken

/-- A token that begins at `p`, relative to one that begins at `previous`. -/
def relative (previous p : Position) (length type : Nat) : SemanticToken :=
  if previous.row < p.row then ⟨p.row - previous.row, p.column, length, type⟩
  else ⟨0, p.column - previous.column, length, type⟩

/-- The tokens of a row of highlights, the one before them, if any, beginning at `previous`.  A
highlight that does not begin after it is left out. -/
def chain : Option Position → List HighlightSpan → List SemanticToken
  | _, [] => []
  | none, h :: rest =>
      ⟨h.start.row, h.start.column, h.length, h.type⟩ :: chain (some h.start) rest
  | some previous, h :: rest =>
      if previous.before h.start then
        relative previous h.start h.length h.type :: chain (some h.start) rest
      else chain (some previous) rest

def all (text : List Char) (root : Tree) : List SemanticToken :=
  chain none (HighlightSpan.all text root)

/-- Five numbers for a token; the last, for its modifiers, is always zero. -/
def toList (t : SemanticToken) : List Nat :=
  [t.deltaLine, t.deltaStart, t.length, t.type, 0]

/-- The semantic tokens of a tree as one row of numbers. -/
def encode (text : List Char) (root : Tree) : List Nat :=
  (all text root).flatMap toList

end SemanticToken

end MettaSyntax
