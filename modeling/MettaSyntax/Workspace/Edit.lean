import MettaSyntax.Workspace.Resolve

/-! # Changing a file tree

Files, directories and links are put at paths, and the directories on the way are made if they are
not there.  Links on the way are followed. -/

set_option autoImplicit false

namespace MettaSyntax

namespace Path

/-- The location at which a path that begins at `here` would end once all that is missing on the
way is made; a link at its end is followed if `last` is set. -/
def target (root : FileNode) (last : Bool) (links : Nat) (here : Location) :
    List (List Char) → Location
  | [] => here
  | part :: rest =>
      if isStay part then target root last links here rest
      else if part = ['.', '.'] then target root last links here.dropLast rest
      else
        match links, root.at? (here ++ [part]) with
        | links + 1, some (.link text) =>
            if last || !rest.isEmpty then
              target root last links (if text.head? = some '/' then [] else here)
                (parts text ++ rest)
            else here ++ [part]
        | links, _ => target root last links (here ++ [part]) rest
  termination_by path => (links, path.length)

/-- The location at which a path would end. -/
def targetOf (root : FileNode) (last : Bool) (path : List Char) : Location :=
  target root last linkLimit [] (parts path)

end Path

namespace FileNode

def putEntry (name : FileName) (n : FileNode) : Entries → Entries
  | [] => [(name, n)]
  | (other, m) :: rest =>
      if other = name then (name, n) :: rest else (other, m) :: putEntry name n rest

/-- Puts at a location what `f` makes of what is there, in directories that are made as needed. -/
def update (f : Option FileNode → FileNode) : Location → Option FileNode → FileNode
  | [], there => f there
  | name :: rest, there =>
      let entries := (there.map FileNode.entries).getD []
      .directory (putEntry name (update f rest (entries.lookup name)) entries)

def erase : Location → FileNode → FileNode
  | [name], n => .directory (n.entries.filter (·.1 ≠ name))
  | name :: rest, n =>
      match n.entries.lookup name with
      | some m => .directory (putEntry name (erase rest m) n.entries)
      | none => n
  | [], n => n

/-- Makes a directory, unless there is one. -/
def makeDirectory (root : FileNode) (path : String) : FileNode :=
  update (fun there => .directory ((there.map FileNode.entries).getD []))
    (Path.targetOf root true path.toList) root

def writeFile (root : FileNode) (path : String) (content : ByteArray) : FileNode :=
  update (fun _ => .file content) (Path.targetOf root true path.toList) root

def makeLink (root : FileNode) (path text : String) : FileNode :=
  update (fun _ => .link text.toList) (Path.targetOf root false path.toList) root

def removeFile (root : FileNode) (path : String) : FileNode :=
  erase (Path.targetOf root false path.toList) root

end FileNode

end MettaSyntax
