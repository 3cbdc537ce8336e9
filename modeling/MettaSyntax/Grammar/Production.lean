import MettaSyntax.Grammar.Symbol

/-! # Productions and fields

    sourceFile  → ε | expressions
    expressions → element | expressions element
    list        → ( ) | ( element ) | ( element arguments )
    arguments   → element | arguments element
    atom        → symbol | variable | string | number

where an element is a list or an atom.  A production may put a field on one of its children, or
take over the fields that a hidden child puts on its own children.  Children are counted without
those that may stand anywhere. -/

set_option autoImplicit false

namespace MettaSyntax

inductive Field where
  | argument
  | head
  deriving DecidableEq

namespace Field

def name : Field → String
  | .argument => "argument"
  | .head => "head"

/-- Fields are numbered from one. -/
def id : Field → Nat
  | .argument => 1
  | .head => 2

/-- Every field, in the order of their numbers. -/
def all : List Field := [.argument, .head]

end Field

/-- A production's word on one of its children. -/
structure FieldEntry where
  field : Field
  child : Nat
  inherited : Bool
  deriving DecidableEq

/-- The field that a row of entries itself puts on the child with the given index. -/
def FieldEntry.own? (entries : List FieldEntry) (index : Nat) : Option Field :=
  (entries.find? fun e => !e.inherited && e.child = index).map FieldEntry.field

inductive Production where
  | emptyFile
  | file
  | firstExpression
  | nextExpression
  | emptyList
  | headList
  | fullList
  | firstArgument
  | nextArgument
  | atom
  deriving DecidableEq

namespace Production

/-- What the production builds. -/
def result : Production → Nonterminal
  | .emptyFile => .sourceFile
  | .file => .sourceFile
  | .firstExpression => .expressions
  | .nextExpression => .expressions
  | .emptyList => .list
  | .headList => .list
  | .fullList => .list
  | .firstArgument => .arguments
  | .nextArgument => .arguments
  | .atom => .atom

def arity : Production → Nat
  | .emptyFile => 0
  | .file => 1
  | .firstExpression => 1
  | .nextExpression => 2
  | .emptyList => 2
  | .headList => 3
  | .fullList => 4
  | .firstArgument => 1
  | .nextArgument => 2
  | .atom => 1

/-- The fields that the production puts on its children, in the order of the fields' numbers. -/
def fields : Production → List FieldEntry
  | .headList => [⟨.head, 1, false⟩]
  | .fullList => [⟨.argument, 2, true⟩, ⟨.head, 1, false⟩]
  | .firstArgument => [⟨.argument, 0, false⟩]
  | .nextArgument => [⟨.argument, 0, true⟩, ⟨.argument, 1, false⟩]
  | _ => []

def isElement : Symbol → Bool
  | .nonterminal .list => true
  | .nonterminal .atom => true
  | _ => false

/-- Whether a row of symbols is a right-hand side of the production. -/
def spells : Production → List Symbol → Bool
  | .emptyFile, [] => true
  | .file, [.nonterminal .expressions] => true
  | .firstExpression, [e] => isElement e
  | .nextExpression, [.nonterminal .expressions, e] => isElement e
  | .emptyList, [.token .opening, .token .closing] => true
  | .headList, [.token .opening, e, .token .closing] => isElement e
  | .fullList, [.token .opening, e, .nonterminal .arguments, .token .closing] => isElement e
  | .firstArgument, [e] => isElement e
  | .nextArgument, [.nonterminal .arguments, e] => isElement e
  | .atom, [.token (.atom _)] => true
  | _, _ => false

theorem length_of_spells {p : Production} {row : List Symbol} (h : p.spells row = true) :
    row.length = p.arity := by
  unfold spells at h
  split at h <;> simp_all [arity]

end Production

end MettaSyntax
