import MettaSyntax.Outline.Definition

/-! # The name under an offset -/

set_option autoImplicit false

namespace MettaSyntax

/-- The text of the symbol or variable over the byte with the given offset.  Offsets into a tree
have 32 bits, and the upper bits of a longer one are dropped. -/
def nameAt? (text : List Char) (root : Tree) (offset : UInt64) : Option (List Char) :=
  let t := root.nodeOver offset.toUInt32.toNat
  if t.isAtomKind .symbol || t.isAtomKind .variable then t.text? text else none

end MettaSyntax
