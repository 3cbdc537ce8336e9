/-! # Paths

A path is a text in which slashes separate names.  This module reads a path's names, joins a name to
a path, finds the extension of a name, and writes a path as the identifier of a document. -/

set_option autoImplicit false

namespace MettaSyntax

namespace Path

/-- The parts of a path between its slashes. -/
def parts : List Char → List (List Char)
  | [] => [[]]
  | '/' :: rest => [] :: parts rest
  | c :: rest =>
      match parts rest with
      | [] => [[c]]
      | part :: more => (c :: part) :: more

/-- A path with a name after it, with a slash in between unless the path ends in one. -/
def join (path name : List Char) : List Char :=
  if path.isEmpty || path.getLast? = some '/' then path ++ name else path ++ '/' :: name

/-- A part that stays in the directory. -/
def isStay (part : List Char) : Bool :=
  part = [] || part = ['.']

/-- The extension of a name: what follows its last dot, if anything stands before that dot. -/
def extensionOfName? (name : List Char) : Option (List Char) :=
  let rest := name.reverse.dropWhile (· ≠ '.')
  if name = ['.', '.'] || rest.length ≤ 1 then none
  else some (name.reverse.takeWhile (· ≠ '.')).reverse

/-- The last name of a path.  Parts that stay in the directory do not count, and a path that ends by
going up has none. -/
def fileName? (path : List Char) : Option (List Char) :=
  ((parts path).filter (!isStay ·)).getLast?.filter (· ≠ ['.', '.'])

def extension? (path : List Char) : Option (List Char) :=
  (fileName? path).bind extensionOfName?

/-- The identifier of the document at a path.  Backslashes count as slashes, and an identifier has
three slashes before the names of the path.  The names are UTF-8, so to read the path as a text, with
replacements for what is none, changes nothing in it. -/
def toUri (path : String) : String :=
  let cs := path.toList.map fun c => if c = '\\' then '/' else c
  if cs.head? = some '/' then "file://" ++ String.ofList cs
  else "file:///" ++ String.ofList cs

end Path

end MettaSyntax
