import MettaSyntax.Text.Slice
import MettaSyntax.Workspace.FileTree
import MettaSyntax.Workspace.Path

/-! # Following a path

A path leads from the root of a file tree to a file or directory, one name at a time.  A symbolic
link on the way is followed by going on from the directory that holds it, and only so many links
may be met. -/

set_option autoImplicit false

namespace MettaSyntax

/-- Why a path leads nowhere. -/
inductive PathError where
  | notFound
  | notDirectory
  | nameTooLong
  | tooManyLinks
  | nulCharacter
  deriving DecidableEq

namespace PathError

def message : PathError → String
  | .notFound => "No such file or directory (os error 2)"
  | .notDirectory => "Not a directory (os error 20)"
  | .nameTooLong => "File name too long (os error 36)"
  | .tooManyLinks => "Too many levels of symbolic links (os error 40)"
  | .nulCharacter => "file name contained an unexpected NUL byte"

end PathError

namespace Path

/-- The number of links that may be met on a path. -/
def linkLimit : Nat := 40

/-- The number of bytes that a name may have. -/
def nameLimit : Nat := 255

/-- The number of bytes that a path may have. -/
def pathLimit : Nat := 4095

/-- The location at which a path that begins at `here` ends; `links` more links may be met. -/
def follow (root : FileNode) (links : Nat) (here : Location) :
    List (List Char) → Except PathError Location
  | [] => .ok here
  | part :: rest =>
      match root.at? here with
      | some (.directory entries) =>
          if isStay part then follow root links here rest
          else if part = ['.', '.'] then follow root links here.dropLast rest
          else if nameLimit < byteLength part then .error .nameTooLong
          else
            match entries.lookup part with
            | none => .error .notFound
            | some (.link target) =>
                match links with
                | 0 => .error .tooManyLinks
                | links + 1 =>
                    follow root links (if target.head? = some '/' then [] else here)
                      (parts target ++ rest)
            | some _ => follow root links (here ++ [part]) rest
      | _ => .error .notDirectory
  termination_by path => (links, path.length)

/-- The location at which a path ends. -/
def resolve (root : FileNode) (path : List Char) : Except PathError Location :=
  if '\x00' ∈ path then .error .nulCharacter
  else if path = [] then .error .notFound
  else if pathLimit < byteLength path then .error .nameTooLong
  else follow root linkLimit [] (parts path)

def stat (root : FileNode) (path : List Char) : Except PathError (Location × FileNode) :=
  (resolve root path).bind fun here =>
    match root.at? here with
    | some n => .ok (here, n)
    | none => .error .notFound

end Path

end MettaSyntax
