/-! # File trees

A file tree holds files, directories and symbolic links; a link keeps its target as a text.  A file
or directory has one location, the names on the way down to it from the root of the tree.  Names and
the targets of links are UTF-8: a tree with a name that is none is no file tree here. -/

set_option autoImplicit false

namespace MettaSyntax

/-- A name that is UTF-8, as the characters that it encodes. -/
abbrev FileName := List Char

/-- The names on the way down from the root. -/
abbrev Location := List FileName

inductive FileNode where
  | file (content : ByteArray)
  | directory (entries : List (FileName × FileNode))
  | link (target : List Char)

/-- What a directory holds under names. -/
abbrev Entries := List (FileName × FileNode)

namespace FileNode

/-- What a directory holds; anything else holds nothing. -/
def entries : FileNode → Entries
  | .directory entries => entries
  | _ => []

def isDirectory : FileNode → Bool
  | .directory _ => true
  | _ => false

/-- What is at a location, when no link is followed. -/
def at? (root : FileNode) : Location → Option FileNode
  | [] => some root
  | name :: rest => (root.entries.lookup name).bind (at? · rest)

mutual

def size : FileNode → Nat
  | .directory entries => sizes entries + 1
  | .file _ => 1
  | .link _ => 1

def sizes : List (FileName × FileNode) → Nat
  | [] => 0
  | (_, n) :: rest => size n + sizes rest

end

@[simp] theorem sizes_nil : sizes [] = 0 := rfl

@[simp] theorem sizes_cons (name : FileName) (n : FileNode) (rest : Entries) :
    sizes ((name, n) :: rest) = size n + sizes rest := by
  simp [sizes]

theorem sizes_perm {a b : Entries} (h : a.Perm b) : sizes a = sizes b := by
  induction h with
  | nil => rfl
  | cons e _ ih => obtain ⟨name, n⟩ := e; simp [ih]
  | swap e f rest =>
      obtain ⟨name, n⟩ := e
      obtain ⟨name', n'⟩ := f
      simp only [sizes_cons]
      omega
  | trans _ _ ih₁ ih₂ => exact ih₁.trans ih₂

theorem size_pos (n : FileNode) : 0 < n.size := by
  cases n <;> simp [size]

mutual

/-- The locations of a tree's directories, when the tree is at `here`. -/
def directories (here : Location) : FileNode → List Location
  | .directory entries => here :: directoriesAmong here entries
  | .file _ => []
  | .link _ => []

/-- The locations of the directories below the names of the directory at `here`. -/
def directoriesAmong (here : Location) : List (FileName × FileNode) → List Location
  | [] => []
  | (name, n) :: rest => directories (here ++ [name]) n ++ directoriesAmong here rest

end

/-- The order of names: by the first character in which they differ, an end before any. -/
def nameLe : FileName → FileName → Bool
  | [], _ => true
  | _ :: _, [] => false
  | a :: as, b :: bs => if a = b then nameLe as bs else a.toNat < b.toNat

def sorted (entries : Entries) : Entries :=
  entries.mergeSort fun a b => nameLe a.1 b.1

theorem sizes_sorted (entries : Entries) : sizes (sorted entries) = sizes entries :=
  sizes_perm (List.mergeSort_perm _ _)

end FileNode

end MettaSyntax
