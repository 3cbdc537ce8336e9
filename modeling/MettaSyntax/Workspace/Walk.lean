import MettaSyntax.Workspace.Resolve

/-! # Walking through a workspace

The walk goes through a directory in the order of its names and through the directories in it when
it comes to them.  It follows links, but not to a directory that it is already inside of, and it
passes over directories with certain names.  Each step either goes further down in the tree or,
over a link, enters one of the directories that it was outside of, so the walk ends. -/

set_option autoImplicit false

namespace MettaSyntax

namespace Walk

open FileNode

/-- The paths at and below a directory's entries that lead to files, in the order of the walk.  The
directory is at the location `here`, the walk came to it by `path`, and `outside` are the locations
of the directories that it is not inside of. -/
def filesAmong (root : FileNode) (skips : FileName → Bool) (outside : List Location)
    (path : List Char) (here : Location) :
    Entries → List (List Char)
  | [] => []
  | (name, n) :: rest =>
      let p := Path.join path name
      let found :=
        match n, Path.stat root p with
        | .file _, .ok _ => [p]
        | .directory entries, .ok _ =>
            if skips name then []
            else
              filesAmong root skips (outside.erase (here ++ [name])) p (here ++ [name])
                (sorted entries)
        | .link _, .ok (_, .file _) => [p]
        | .link _, .ok (there, .directory entries) =>
            if _h : there ∈ outside then
              if skips name then []
              else filesAmong root skips (outside.erase there) p there (sorted entries)
            else []
        | _, _ => []
      found ++ filesAmong root skips outside path here rest
  termination_by entries => (outside.length, sizes entries)
  decreasing_by
    · have hle : (outside.erase (here ++ [name])).length ≤ outside.length := List.length_erase_le
      rcases Nat.lt_or_eq_of_le hle with hlt | heq
      · exact Prod.Lex.left _ _ hlt
      · rw [heq]
        refine Prod.Lex.right _ ?_
        rw [sizes_sorted, sizes_cons, size]
        omega
    · refine Prod.Lex.left _ _ ?_
      rw [List.length_erase_of_mem _h]
      have := List.length_pos_of_mem _h
      omega
    · refine Prod.Lex.right _ ?_
      have := size_pos n
      rw [sizes_cons]
      omega

/-- The paths at and below `path` that lead to files, in the order of the walk.  What is at the path
itself is never passed over. -/
def files (root : FileNode) (skips : FileName → Bool) (path : List Char) :
    Except PathError (List (List Char)) :=
  (Path.stat root path).map fun
    | (_, .file _) => [path]
    | (here, .directory entries) =>
        filesAmong root skips ((root.directories []).erase here) path here (sorted entries)
    | (_, .link _) => []

end Walk

end MettaSyntax
