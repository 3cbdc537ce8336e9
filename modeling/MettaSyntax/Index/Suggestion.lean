import MettaSyntax.Index.Basic

/-! # Completions

What an editor offers to complete a name: the built-in forms of the language, and after them the
names in the index, none twice. -/

set_option autoImplicit false

namespace MettaSyntax

inductive SuggestionKind where
  | keyword
  | definition
  deriving DecidableEq

structure Suggestion where
  label : String
  kind : SuggestionKind
  deriving DecidableEq

namespace Suggestion

def keywords : List String :=
  ["if", "let", "let*", "match", "case", "collapse", "superpose", "Cons", "Nil", "True", "False",
    "empty", "Error"]

/-- Leaves out every suggestion whose label an earlier one has. -/
def distinct : List Suggestion → List Suggestion
  | [] => []
  | s :: rest => s :: (distinct rest).filter (·.label ≠ s.label)

end Suggestion

/-- The built-in forms followed by the names in the index. -/
def Index.suggestions (index : Index) : List Suggestion :=
  Suggestion.distinct
    (Suggestion.keywords.map (⟨·, .keyword⟩) ++ index.names.map (⟨·, .definition⟩))

end MettaSyntax
