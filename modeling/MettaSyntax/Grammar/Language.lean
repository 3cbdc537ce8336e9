import MettaSyntax.Grammar.Production

/-! # The grammar as a language handle

A handle is what a parsing library loads: it has a version, which the library must understand, and
answers questions about symbols and fields by name and number. -/

set_option autoImplicit false

namespace MettaSyntax

/-- A handle on the grammar under a version of the handle format. -/
structure Language where
  version : Nat
  deriving DecidableEq

/-- Why a handle cannot be loaded. -/
inductive LoadError where
  | absent
  | unsupported (version : Nat)
  deriving DecidableEq

namespace Language

def oldestVersion : Nat := 13

def newestVersion : Nat := 14

def metta : Language := ⟨14⟩

/-- The number of symbols that the grammar numbers. -/
def kindCount (_ : Language) : Nat := Symbol.numbered.length

def fieldCount (_ : Language) : Nat := Field.all.length

/-- Loads a handle, if there is one and its version is understood. -/
def load : Option Language → Except LoadError Language
  | none => .error .absent
  | some l =>
      if oldestVersion ≤ l.version ∧ l.version ≤ newestVersion then .ok l
      else .error (.unsupported l.version)

def symbol? (id : Nat) : Option Symbol :=
  if id = Symbol.errorId then some .error
  else if id = Symbol.skippedId then some .skipped
  else Symbol.numbered[id]?

def kindName? (id : Nat) : Option String :=
  (symbol? id).map Symbol.name

def kindIsNamed (id : Nat) : Bool :=
  (symbol? id).any fun s => s.visible && s.named

def kindIsVisible (id : Nat) : Bool :=
  (symbol? id).any Symbol.visible

/-- Whether a name is taken for that of the error symbol: it need only agree as far as it goes, or
up to a NUL. -/
def isErrorName (name : List Char) : Bool :=
  let error := Symbol.error.name.toList
  name.isPrefixOf error || (error ++ ['\x00']).isPrefixOf name

/-- The number of the symbol with a name that readers see, or zero. -/
def kindId (name : String) (named : Bool) : Nat :=
  if isErrorName name.toList then Symbol.errorId
  else
    (Symbol.numbered.findIdx? fun s =>
      s.visible && s.named == named && s.name == name).getD 0

def fieldId? (name : String) : Option Nat :=
  (Field.all.find? (·.name == name)).map Field.id

def fieldName? (id : Nat) : Option String :=
  (Field.all.find? (·.id == id)).map Field.name

end Language

namespace LoadError

def message : LoadError → String
  | .absent => "Error loading Metta grammar: provider returned a null language"
  | .unsupported version =>
      "Error loading Metta grammar: Incompatible language version " ++ toString version ++
        ". Expected minimum " ++ toString Language.oldestVersion ++ ", maximum " ++
        toString Language.newestVersion

end LoadError

end MettaSyntax
