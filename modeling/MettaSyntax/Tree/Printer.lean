import MettaSyntax.Tree.Basic

/-! # Writing a tree as an S-expression

Named nodes are written in parentheses with their kind, their field in front if they have one, and
missing tokens by what is missing.  A hidden node is not written; it passes its field on to those
of its children that have none of their own. -/

set_option autoImplicit false

namespace MettaSyntax

namespace Tree

def isWritten (t : Tree) : Bool :=
  t.isMissing || (t.isVisible && t.isNamed)

def writeField : Option Field → String
  | some f => f.name ++ ": "
  | none => ""

/-- What is written for a node after its opening parenthesis. -/
def writeHead (t : Tree) : String :=
  if t.isMissing then
    if t.isNamed then "MISSING " ++ t.kind else "MISSING \"" ++ t.kind ++ "\""
  else if t.isError && t.children.isEmpty && 0 < t.span.bytes then "UNEXPECTED '\\0'"
  else t.kind

mutual

/-- A tree below the root, under the field that it has. -/
def write (field : Option Field) : Tree → String
  | .leaf token missing =>
      let t := Tree.leaf token missing
      if t.isWritten then " " ++ writeField field ++ "(" ++ t.writeHead ++ ")" else ""
  | .node label span children =>
      let t := Tree.node label span children
      if t.isWritten then
        " " ++ writeField field ++ "(" ++ t.writeHead ++
          writeRow label.fields none 0 children ++ ")"
      else writeRow label.fields field 0 children

/-- The children of a node with the given field entries, from the given index on. -/
def writeRow (entries : List FieldEntry) (field : Option Field) (index : Nat) :
    List Tree → String
  | [] => ""
  | t :: row =>
      if t.isExtra then write none t ++ writeRow entries field index row
      else
        write ((FieldEntry.own? entries index).or field) t ++
          writeRow entries field (index + 1) row

end

/-- A whole tree, whose root is always written. -/
def toSExpr (t : Tree) : String :=
  "(" ++ t.writeHead ++ writeRow t.fields none 0 t.children ++ ")"

end Tree

end MettaSyntax
