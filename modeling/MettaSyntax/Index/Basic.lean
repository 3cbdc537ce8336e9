import MettaSyntax.Outline.Definition
import MettaSyntax.Parse.Completion

/-! # The index of definitions

The index holds the definitions of any number of documents by name.  Under each name the entries
stand in the order in which their documents were inserted last, and in the order of the text within
a document.  Inserting a document again replaces its entries. -/

set_option autoImplicit false

namespace MettaSyntax

structure Index.Entry where
  uri : String
  definition : Definition
  deriving DecidableEq

/-- The entries under each name. -/
structure Index where
  rows : List (String × List Index.Entry)

namespace Index

def empty : Index := ⟨[]⟩

/-- Puts an entry last under its name. -/
def append (e : Entry) : List (String × List Entry) → List (String × List Entry)
  | [] => [(e.definition.name, [e])]
  | (name, row) :: rest =>
      if name = e.definition.name then (name, row ++ [e]) :: rest
      else (name, row) :: append e rest

/-- Removes what is known about a document, and with it the names left without entries. -/
def erase (index : Index) (uri : String) : Index :=
  ⟨index.rows.filterMap fun (name, row) =>
    match row.filter (·.uri ≠ uri) with
    | [] => none
    | kept => some (name, kept)⟩

/-- Replaces what is known about a document by the given definitions. -/
def replace (index : Index) (uri : String) (definitions : List Definition) : Index :=
  ⟨definitions.foldl (fun rows d => append ⟨uri, d⟩ rows) (index.erase uri).rows⟩

/-- Replaces what is known about a document by the definitions in its text, and counts them. -/
def insert (index : Index) (uri source : String) : Index × Nat :=
  let text := source.toList
  let found := Definition.all text (parse text)
  (index.replace uri found, found.length)

def lookup (index : Index) (name : String) : List Entry :=
  (index.rows.lookup name).getD []

/-- The entry that describes a name best from inside a document: a type declaration in the document,
or else any type declaration, or else any entry in the document, or else any entry. -/
def describe? (index : Index) (name uri : String) : Option Entry :=
  let row := index.lookup name
  let isType (e : Entry) : Bool := e.definition.kind = .typeDeclaration
  let isLocal (e : Entry) : Bool := e.uri = uri
  (row.find? fun e => isType e && isLocal e).or <|
    (row.find? isType).or <| (row.find? isLocal).or row.head?

def names (index : Index) : List String :=
  (index.rows.map Prod.fst).mergeSort fun a b => decide (a ≤ b)

end Index

end MettaSyntax
