import MettaSyntax.Text.Slice
import MettaSyntax.Tree.Cursor
import MettaSyntax.Tree.Field
import MettaSyntax.Tree.Locate

/-! # Definitions

A list headed by `=` is an equation and one headed by `:` a type declaration.  The name that it
defines is its first argument, if that is a symbol, or the head of its first argument, if that is
a list headed by a symbol. -/

set_option autoImplicit false

namespace MettaSyntax

def Tree.text? (text : List Char) (t : Tree) : Option (List Char) :=
  slice? text t.span.start.byte t.span.stop.byte

inductive DefinitionKind where
  | equation
  | typeDeclaration
  deriving DecidableEq

namespace DefinitionKind

/-- The kind of definition that a head makes. -/
def ofOperator? : List Char → Option DefinitionKind
  | ['='] => some .equation
  | [':'] => some .typeDeclaration
  | _ => none

end DefinitionKind

structure Definition where
  name : String
  kind : DefinitionKind
  span : Span
  /-- The text of the innermost list around the name. -/
  context : String
  deriving DecidableEq

namespace Definition

/-- The symbol that is defined by a list with the given first argument. -/
def name? (argument : Tree) : Option Tree :=
  if argument.isNonterminal .list then (argument.child? .head).bind Tree.symbolWithin?
  else argument.symbolWithin?

/-- The definition that a list is, if it is one. -/
def ofList? (text : List Char) (root list : Tree) : Option Definition := do
  let operator ← (list.child? .head).bind Tree.symbolWithin?
  let kind ← DefinitionKind.ofOperator? (← operator.text? text)
  let name ← name? (← list.child? .argument)
  let context := (root.listAround? name.span).getD name
  return ⟨.ofList (← name.text? text), kind, name.span, .ofList (← context.text? text)⟩

def all (text : List Char) (root : Tree) : List Definition :=
  root.preorder.filterMap fun c =>
    if c.tree.isNonterminal .list then ofList? text root c.tree else none

end Definition

end MettaSyntax
