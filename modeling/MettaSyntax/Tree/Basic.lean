import MettaSyntax.Grammar.Production

/-! # Syntax trees

A leaf is a token, and a node is a production with its children, an error, or a run of skipped
tokens.  A tree keeps everything that was read: comments and errors stand among the children of
the node in which they were met, as extras, and hidden nodes chain the elements of a list or file
together.  Every node carries the span of its children. -/

set_option autoImplicit false

namespace MettaSyntax

inductive Label where
  | production (p : Production)
  /-- A part of the text that fits no production, within the tree or all of it. -/
  | error (whole : Bool)
  /-- A run of tokens that were skipped one after another. -/
  | skipped
  deriving DecidableEq

namespace Label

def symbol : Label → Symbol
  | .production p => .nonterminal p.result
  | .error _ => .error
  | .skipped => .skipped

def fields : Label → List FieldEntry
  | .production p => p.fields
  | _ => []

/-- Whether the node is an error or a part of one. -/
def isBroken : Label → Bool
  | .production _ => false
  | _ => true

end Label

inductive Tree where
  /-- A token, or one that is missing from the text and was supplied with width zero. -/
  | leaf (token : Token) (missing : Bool)
  | node (label : Label) (span : Span) (children : List Tree)

namespace Tree

def span : Tree → Span
  | .leaf token _ => token.span
  | .node _ span _ => span

/-- The stretch that a row of trees covers, which is empty and at `p` if the row is. -/
def hull (p : Position) (row : List Tree) : Span :=
  match row.head?, row.getLast? with
  | some first, some last => ⟨first.span.start, last.span.stop⟩
  | _, _ => .empty p

/-- The node over a row of trees; `p` is its place should the row be empty. -/
def ofChildren (label : Label) (p : Position) (row : List Tree) : Tree :=
  .node label (hull p row) row

def ofToken (token : Token) : Tree :=
  .leaf token false

def missingAt (kind : TokenKind) (p : Position) : Tree :=
  .leaf ⟨kind, .empty p⟩ true

def children : Tree → List Tree
  | .leaf _ _ => []
  | .node _ _ children => children

def fields : Tree → List FieldEntry
  | .leaf _ _ => []
  | .node label _ _ => label.fields

def symbol : Tree → Symbol
  | .leaf token _ => token.kind.toSymbol
  | .node label _ _ => label.symbol

def kind (t : Tree) : String :=
  t.symbol.name

def isVisible (t : Tree) : Bool :=
  t.symbol.visible

def isNamed (t : Tree) : Bool :=
  t.symbol.named

def isMissing : Tree → Bool
  | .leaf _ missing => missing
  | .node _ _ _ => false

/-- An error node, or a stretch without token. -/
def isError (t : Tree) : Bool :=
  t.symbol = .error

/-- Extras may stand among the children of any node, and its production does not count them:
comments, the end of the text, and errors within the tree. -/
def isExtra : Tree → Bool
  | .leaf token _ => token.kind = .comment || token.kind = .ending
  | .node (.error whole) _ _ => !whole
  | .node _ _ _ => false

def isSkipped : Tree → Bool
  | .node .skipped _ _ => true
  | _ => false

/-- Splits the extras at the end of a row off it. -/
def splitTrailing (row : List Tree) : List Tree × List Tree :=
  ((row.reverse.dropWhile isExtra).reverse, (row.reverse.takeWhile isExtra).reverse)

theorem splitTrailing_append (row : List Tree) :
    (splitTrailing row).1 ++ (splitTrailing row).2 = row := by
  simp only [splitTrailing, ← List.reverse_append, List.takeWhile_append_dropWhile,
    List.reverse_reverse]

mutual

/-- The number of nodes of a tree, hidden ones included. -/
def size : Tree → Nat
  | .leaf _ _ => 1
  | .node _ _ children => sizes children + 1

def sizes : List Tree → Nat
  | [] => 0
  | t :: row => size t + sizes row

end

@[simp] theorem sizes_nil : sizes [] = 0 := rfl

@[simp] theorem sizes_cons (t : Tree) (row : List Tree) :
    sizes (t :: row) = size t + sizes row := by
  simp [sizes]

theorem size_eq (t : Tree) : t.size = sizes t.children + 1 := by
  cases t <;> simp [size, children]

theorem size_le_sizes {t : Tree} {row : List Tree} (h : t ∈ row) : size t ≤ sizes row := by
  induction row with
  | nil => simp at h
  | cons u row ih =>
      rcases List.mem_cons.1 h with rfl | h
      · simp
      · have := ih h
        simp
        omega

theorem size_lt_of_mem {c t : Tree} (h : c ∈ t.children) : c.size < t.size := by
  have := size_le_sizes h
  rw [size_eq t]
  omega

mutual

/-- The visible nodes just below a tree, those below a hidden child in its stead. -/
def visibleChildren : Tree → List Tree
  | .leaf _ _ => []
  | .node _ _ children => visibleRow children

def visibleRow : List Tree → List Tree
  | [] => []
  | t :: row => (if t.isVisible then [t] else visibleChildren t) ++ visibleRow row

end

def isNonterminal (n : Nonterminal) (t : Tree) : Bool :=
  t.symbol = .nonterminal n

def isAtomKind (k : AtomKind) (t : Tree) : Bool :=
  t.symbol = .token (.atom k)

end Tree

end MettaSyntax
