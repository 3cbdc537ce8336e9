import MettaSyntax.Tree.Basic

/-! # Walking through a tree

A cursor stands on a node of a tree and knows the way to it from the root.  It steps over hidden
nodes: the children that it sees are the visible nodes below with only hidden nodes in between.
`Cursor.visits` goes on from a node as long as there is a step to a first child, to a next sibling,
or to the next sibling of an ancestor.  Each step leaves less of the tree to come, so the walk
ends. -/

set_option autoImplicit false

namespace MettaSyntax

/-- A node among its siblings: those after it, and how many of those before it its parent's
production counts. -/
structure Place where
  tree : Tree
  after : List Tree
  index : Nat

namespace Place

def nextIndex (p : Place) : Nat :=
  if p.tree.isExtra then p.index else p.index + 1

end Place

/-- A node, and the nodes above it, the nearest first. -/
structure Cursor where
  here : Place
  above : List Place

namespace Cursor

def root (t : Tree) : Cursor := ⟨⟨t, [], 0⟩, []⟩

def tree (c : Cursor) : Tree := c.here.tree

/-- The number of visible nodes above. -/
def depth (c : Cursor) : Nat :=
  (c.above.filter (·.tree.isVisible)).length

/-- The first visible node in a row of siblings, the first of which has the given index. -/
def enter? (above : List Place) : List Tree → Nat → Option Cursor
  | [], _ => none
  | t :: row, index =>
      let place : Place := ⟨t, row, index⟩
      if t.isVisible then some ⟨place, above⟩
      else
        match enter? (place :: above) t.children 0 with
        | some c => some c
        | none => enter? above row place.nextIndex
  termination_by row => Tree.sizes row
  decreasing_by
    · rw [Tree.sizes_cons, Tree.size_eq]; omega
    · rw [Tree.sizes_cons, Tree.size_eq]; omega

def firstChild? (c : Cursor) : Option Cursor :=
  enter? (c.here :: c.above) c.here.tree.children 0

/-- The next visible node below the nearest visible node above a place. -/
def following? : Place → List Place → Option Cursor
  | here, [] => enter? [] here.after here.nextIndex
  | here, up :: above =>
      match enter? (up :: above) here.after here.nextIndex with
      | some c => some c
      | none => if up.tree.isVisible then none else following? up above

/-- The next visible node with the same visible parent. -/
def nextSibling? (c : Cursor) : Option Cursor :=
  following? c.here c.above

/-- The nearest of the places that is visible, or else the last, which is the root. -/
def nearest? : List Place → Option Cursor
  | [] => none
  | [p] => some ⟨p, []⟩
  | p :: above => if p.tree.isVisible then some ⟨p, above⟩ else nearest? above

def parent? (c : Cursor) : Option Cursor :=
  nearest? c.above

theorem nearest?_above_length {above : List Place} {c : Cursor} (h : nearest? above = some c) :
    c.above.length < above.length := by
  fun_induction nearest? above with
  | case1 => simp at h
  | case2 p => simp at h; simp [← h]
  | case3 p above _ _ => simp at h; simp [← h]
  | case4 p above _ _ ih => exact Nat.lt_succ_of_lt (ih h)

/-- The next sibling of the node or of the nearest visible node above it that has one. -/
def leave? (c : Cursor) : Option Cursor :=
  match c.nextSibling? with
  | some next => some next
  | none =>
      match _h : c.parent? with
      | some up => leave? up
      | none => none
  termination_by c.above.length
  decreasing_by exact nearest?_above_length _h

/-- The visible node after this one, in the order of the text with each node before those below
it. -/
def next? (c : Cursor) : Option Cursor :=
  c.firstChild?.or c.leave?

/-- How much of the tree comes after a row of places. -/
def pending : List Place → Nat
  | [] => 0
  | p :: above => Tree.sizes p.after + pending above

def work (c : Cursor) : Nat :=
  Tree.sizes c.tree.children + pending (c.here :: c.above)

@[simp] theorem pending_cons (p : Place) (above : List Place) :
    pending (p :: above) = Tree.sizes p.after + pending above := rfl

theorem enter?_work {above : List Place} {row : List Tree} {index : Nat} {c : Cursor}
    (h : enter? above row index = some c) : c.work < Tree.sizes row + pending above := by
  fun_induction enter? above row index with
  | case1 => simp at h
  | case2 above t row index place hv =>
      simp only [Option.some.injEq] at h
      subst h
      simp [work, tree, place, Tree.size_eq]
      omega
  | case3 above t row index place hv c' hc ih =>
      simp only [Option.some.injEq] at h
      subst h
      have := ih hc
      simp [place, Tree.size_eq] at this ⊢
      omega
  | case4 above t row index place hv hn ih₁ ih₂ =>
      have := ih₂ h
      simp [Tree.size_eq]
      omega

theorem following?_work {here : Place} {above : List Place} {c : Cursor}
    (h : following? here above = some c) : c.work < Tree.sizes here.after + pending above := by
  fun_induction following? here above with
  | case1 here => exact enter?_work h
  | case2 here up above c' hc =>
      simp only [Option.some.injEq] at h
      exact h ▸ enter?_work hc
  | case3 here up above hn hv => simp at h
  | case4 here up above hn hv ih =>
      have := ih h
      simp
      omega

theorem nearest?_pending {above : List Place} {c : Cursor} (h : nearest? above = some c) :
    pending (c.here :: c.above) ≤ pending above := by
  fun_induction nearest? above with
  | case1 => simp at h
  | case2 p => simp at h; simp [← h]
  | case3 p above _ _ => simp at h; simp [← h]
  | case4 p above _ _ ih =>
      have := ih h
      simp at this ⊢
      omega

theorem leave?_work {c d : Cursor} (h : c.leave? = some d) :
    d.work < pending (c.here :: c.above) := by
  fun_induction leave? c with
  | case1 c next hn =>
      simp only [Option.some.injEq] at h
      subst h
      simpa using following?_work hn
  | case2 c hn up hu ih =>
      have h₁ := ih h
      have h₂ := nearest?_pending hu
      simp at h₁ h₂ ⊢
      omega
  | case3 c hn hu => simp at h

theorem next?_work {c d : Cursor} (h : c.next? = some d) : d.work < c.work := by
  rw [next?, Option.or_eq_some_iff] at h
  rcases h with h | ⟨-, h⟩
  · have := enter?_work h
    simpa [work, tree, Nat.add_assoc] using this
  · exact Nat.lt_of_lt_of_le (leave?_work h) (Nat.le_add_left _ _)

/-- The node and all visible nodes after it. -/
def visits (c : Cursor) : List Cursor :=
  c :: match _h : c.next? with
    | some next => visits next
    | none => []
  termination_by c.work
  decreasing_by exact next?_work _h

def siblings (c : Cursor) : List Cursor :=
  c :: match _h : c.nextSibling? with
    | some next => siblings next
    | none => []
  termination_by c.work
  decreasing_by
    have := following?_work _h
    simp [work, tree] at this ⊢
    omega

def childCursors (c : Cursor) : List Cursor :=
  c.firstChild?.elim [] siblings

/-- The field of a place: the one that its parent's production puts on it, or else, if the parent
is hidden, the parent's own. -/
def fieldOf? : Place → List Place → Option Field
  | _, [] => none
  | here, up :: above =>
      if here.tree.isExtra then none
      else
        match FieldEntry.own? up.tree.fields here.index with
        | some f => some f
        | none => if up.tree.isVisible then none else fieldOf? up above

def field? (c : Cursor) : Option Field :=
  fieldOf? c.here c.above

end Cursor

/-- Every visible node of a tree, each before those below it. -/
def Tree.preorder (t : Tree) : List Cursor :=
  (Cursor.root t).visits

end MettaSyntax
