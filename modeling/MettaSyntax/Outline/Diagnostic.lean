import MettaSyntax.Tree.Cursor

/-! # Diagnostics

What is wrong with a text: every part that could not be read, and every token that is missing. -/

set_option autoImplicit false

namespace MettaSyntax

inductive Fault where
  | syntaxError
  | missing (kind : String)
  deriving DecidableEq

def Fault.message : Fault → String
  | .syntaxError => "Syntax error"
  | .missing kind => "Missing node: " ++ kind

structure Diagnostic where
  fault : Fault
  span : Span
  deriving DecidableEq

namespace Diagnostic

/-- What is wrong with a node itself. -/
def of? (t : Tree) : Option Diagnostic :=
  if t.isError then some ⟨.syntaxError, t.span⟩
  else if t.isMissing then some ⟨.missing t.kind, t.span⟩
  else none

/-- All that is wrong with a tree, in the order of the text. -/
def all (root : Tree) : List Diagnostic :=
  root.preorder.filterMap fun c => of? c.tree

end Diagnostic

end MettaSyntax
