import MettaSyntax.Tree.Basic

/-! # Looking a child up by its field

The entries of a node's production say where among its children one with the field may be.  An
inherited entry points at a hidden child, below which the search goes on. -/

set_option autoImplicit false

namespace MettaSyntax

namespace Tree

mutual

def child? (f : Field) : Tree → Option Tree
  | .leaf _ _ => none
  | .node label _ children => childAt? f (label.fields.filter (·.field = f)) 0 children

/-- The first node in a row of siblings at which one of the entries, taken in order, points.  The
first of the siblings has the given index. -/
def childAt? (f : Field) : List FieldEntry → Nat → List Tree → Option Tree
  | _, _, [] => none
  | [], _, _ :: _ => none
  | e :: entries, index, t :: row =>
      if t.isExtra then childAt? f (e :: entries) index row
      else if index < e.child then childAt? f (e :: entries) (index + 1) row
      else if e.inherited then
        (child? f t).or (childAt? f entries (index + 1) row)
      else if t.isVisible then some t
      else (visibleChildren t).head?.or (childAt? f entries (index + 1) row)

end

/-- The symbol that an atom consists of, if it is one. -/
def symbolWithin? (t : Tree) : Option Tree :=
  if t.isNonterminal .atom then
    (t.visibleChildren.find? isNamed).filter (isAtomKind .symbol)
  else none

end Tree

end MettaSyntax
