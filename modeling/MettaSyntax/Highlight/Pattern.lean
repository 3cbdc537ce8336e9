import MettaSyntax.Tree.Cursor

/-! # Patterns on trees

A pattern describes a node by its symbol and by some of its children, which are found in the order
of the pattern with any others in between.  It matches a node in as many ways as there are choices
for those children, and each way captures nodes under the names that the pattern gives them. -/

set_option autoImplicit false

namespace MettaSyntax

inductive Pattern where
  /-- A node of a symbol, under a name if it is to be captured, with some children, each in a field
  if one is given. -/
  | node (symbol : Symbol) (capture : Option String) (children : List (Option Field × Pattern))

/-- A node under the name of a capture. -/
abbrev Capture := String × Tree

namespace Pattern

/-- Every element of a row with the ones after it. -/
def choices {α : Type} : List α → List (α × List α)
  | [] => []
  | a :: row => (a, row) :: choices row

mutual

/-- The captures of each way in which a pattern matches the node of a cursor. -/
def matchAt : Pattern → Cursor → List (List Capture)
  | .node symbol capture children, c =>
      if c.tree.symbol = symbol then
        (matchRow children c.childCursors).map
          ((capture.map fun name => (name, c.tree)).toList ++ ·)
      else []

/-- The captures of each way in which a row of patterns matches some of a row of nodes in order. -/
def matchRow : List (Option Field × Pattern) → List Cursor → List (List Capture)
  | [], _ => [[]]
  | (field, p) :: more, row =>
      (choices row).flatMap fun (c, after) =>
        if field.all fun f => c.field? = some f then
          (matchAt p c).flatMap fun first => (matchRow more after).map (first ++ ·)
        else []

end

mutual

/-- The names that a pattern gives to captures, in the order of the pattern. -/
def captureNames : Pattern → List String
  | .node _ capture children => capture.toList ++ captureNamesRow children

def captureNamesRow : List (Option Field × Pattern) → List String
  | [] => []
  | (_, p) :: more => captureNames p ++ captureNamesRow more

end

end Pattern

end MettaSyntax
