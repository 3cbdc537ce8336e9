import MettaSyntax.Index.Basic
import MettaSyntax.Workspace.Walk

/-! # Scanning a workspace

A scan indexes every readable source file at and below a directory.  It fails only if there is
nothing at the path of the directory. -/

set_option autoImplicit false

namespace MettaSyntax

def sourceExtension : String := "metta"

/-- Which files a scan takes, and which directories it passes over. -/
structure ScanOptions where
  extension : String := sourceExtension
  passedOver : List String := ["node_modules", ".git", "vscode-metta"]
  deriving DecidableEq

namespace ScanOptions

/-- Whether the directories with a name are passed over.  The name is UTF-8, and it is compared as a
text. -/
def skips (options : ScanOptions) (name : FileName) : Bool :=
  options.passedOver.any (·.toList = name)

def takes (options : ScanOptions) (path : List Char) : Bool :=
  Path.extension? path = some options.extension.toList

end ScanOptions

/-- A scan failed since its path leads nowhere. -/
structure ScanError where
  path : String
  cause : PathError
  deriving DecidableEq

def ScanError.message (e : ScanError) : String :=
  "failed to read " ++ e.path ++ ": " ++ e.cause.message

namespace Scan

/-- The text of the file to which a path leads, if there is one and it is well encoded. -/
def read? (root : FileNode) (path : List Char) : Option String :=
  match Path.stat root path with
  | .ok (_, .file content) => String.fromUTF8? content
  | _ => none

/-- The documents that a scan finds, each with its text, in the order in which it indexes them. -/
def documents (root : FileNode) (options : ScanOptions) (path : String) :
    Except ScanError (List (String × String)) :=
  match Walk.files root options.skips path.toList with
  | .error cause => .error ⟨path, cause⟩
  | .ok found =>
      .ok ((found.filter options.takes).filterMap fun p =>
        (read? root p).map fun text => (Path.toUri (.ofList p), text))

end Scan

/-- Indexes the source files at and below a path, and counts them. -/
def Index.scan (index : Index) (root : FileNode) (options : ScanOptions)
    (path : String) : Except ScanError (Index × Nat) :=
  (Scan.documents root options path).map fun found =>
    (found.foldl (fun index (uri, text) => (index.insert uri text).1) index, found.length)

end MettaSyntax
