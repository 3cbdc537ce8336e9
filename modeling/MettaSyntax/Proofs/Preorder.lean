import MettaSyntax.Outline.Diagnostic

/-! # What the walk through a tree visits

`Cursor.below` lists the visible nodes of a row of siblings by recursion on the trees, and
`Cursor.pending` those that come after a row of places.  A step of the walk takes the first of what
is still to come, so `Tree.preorder` is the root followed by the visible nodes below it, each once.
`Cursor.shown` is what a reader is told about a node; it too is computed from the trees alone. -/

set_option autoImplicit false

namespace MettaSyntax

namespace Cursor

/-- The visible nodes in a row of siblings, the first of which has the given index. -/
def below (above : List Place) : List Tree → Nat → List Cursor
  | [], _ => []
  | t :: row, index =>
      let place : Place := ⟨t, row, index⟩
      (if t.isVisible then [⟨place, above⟩] else []) ++
        below (place :: above) t.children 0 ++ below above row place.nextIndex
  termination_by row => Tree.sizes row
  decreasing_by
    · rw [Tree.sizes_cons, Tree.size_eq]; omega
    · rw [Tree.sizes_cons, Tree.size_eq]; omega

/-- The visible nodes after a row of places, the nearest of which comes first. -/
def later : List Place → List Cursor
  | [] => []
  | p :: above => below above p.after p.nextIndex ++ later above

def rest (c : Cursor) : List Cursor :=
  below (c.here :: c.above) c.tree.children 0 ++ later (c.here :: c.above)

@[simp] theorem below_nil (above : List Place) (index : Nat) : below above [] index = [] := by
  simp [below]

theorem below_cons (above : List Place) (t : Tree) (row : List Tree) (index : Nat) :
    below above (t :: row) index =
      (if t.isVisible then [⟨⟨t, row, index⟩, above⟩] else []) ++
        below (⟨t, row, index⟩ :: above) t.children 0 ++
        below above row (Place.nextIndex ⟨t, row, index⟩) := by
  rw [below]

theorem enter?_none {above : List Place} {row : List Tree} {index : Nat}
    (h : enter? above row index = none) : below above row index = [] := by
  fun_induction enter? above row index with
  | case1 => exact below_nil _ _
  | case2 above t row index place hv => simp at h
  | case3 above t row index place hv c hc ih => simp at h
  | case4 above t row index place hv hn ih₁ ih₂ =>
      rw [below_cons, if_neg hv, ih₁ hn, ih₂ h]
      rfl

theorem enter?_some {above : List Place} {row : List Tree} {index : Nat} {c : Cursor}
    (h : enter? above row index = some c) :
    below above row index ++ later above = c :: c.rest := by
  fun_induction enter? above row index with
  | case1 => simp at h
  | case2 above t row index place hv =>
      simp only [Option.some.injEq] at h
      subst h
      rw [below_cons, if_pos hv]
      simp [rest, later, tree, place]
  | case3 above t row index place hv d hd ih =>
      simp only [Option.some.injEq] at h
      subst h
      rw [below_cons, if_neg hv, ← ih hd]
      simp [later, place]
  | case4 above t row index place hv hn ih₁ ih₂ =>
      have empty : below (place :: above) t.children 0 = [] := enter?_none hn
      rw [below_cons, if_neg hv, empty]
      simpa using ih₂ h

theorem following?_some {here : Place} {above : List Place} {c : Cursor}
    (h : following? here above = some c) : later (here :: above) = c :: c.rest := by
  fun_induction following? here above with
  | case1 here => exact enter?_some h
  | case2 here up above d hd =>
      simp only [Option.some.injEq] at h
      subst h
      exact enter?_some hd
  | case3 here up above hn hv => simp at h
  | case4 here up above hn hv ih => rw [later, enter?_none hn, List.nil_append, ih h]

theorem nearest?_cons_cons (p q : Place) (above : List Place) :
    nearest? (p :: q :: above) =
      if p.tree.isVisible then some ⟨p, q :: above⟩ else nearest? (q :: above) := by
  rw [nearest?]
  simp

/-- Without a next sibling, what is still to come is what comes after the visible parent. -/
theorem following?_none {here : Place} {above : List Place} (h : following? here above = none) :
    later (here :: above) =
      (nearest? above).elim [] fun up => later (up.here :: up.above) := by
  fun_induction following? here above with
  | case1 here => rw [later, enter?_none h]; rfl
  | case2 here up above d hd => simp at h
  | case3 here up above hn hv =>
      rw [later, enter?_none hn, List.nil_append]
      cases above with
      | nil => rfl
      | cons p above => rw [nearest?_cons_cons, if_pos hv]; rfl
  | case4 here up above hn hv ih =>
      rw [later, enter?_none hn, List.nil_append, ih h]
      cases above with
      | nil => rw [← ih h]; rfl
      | cons p above => rw [nearest?_cons_cons, if_neg hv]

theorem leave?_some {c d : Cursor} (h : c.leave? = some d) :
    later (c.here :: c.above) = d :: d.rest := by
  fun_induction leave? c with
  | case1 c next hn =>
      simp only [Option.some.injEq] at h
      subst h
      exact following?_some hn
  | case2 c hn up hu ih =>
      have parent : nearest? c.above = some up := hu
      rw [following?_none hn, parent]
      exact ih h
  | case3 c hn hu => simp at h

theorem leave?_none {c : Cursor} (h : c.leave? = none) : later (c.here :: c.above) = [] := by
  fun_induction leave? c with
  | case1 c next hn => simp at h
  | case2 c hn up hu ih =>
      have parent : nearest? c.above = some up := hu
      rw [following?_none hn, parent]
      exact ih h
  | case3 c hn hu =>
      have parent : nearest? c.above = none := hu
      rw [following?_none hn, parent]
      rfl

theorem next?_some {c d : Cursor} (h : c.next? = some d) : c.rest = d :: d.rest := by
  rw [next?, Option.or_eq_some_iff] at h
  rcases h with h | ⟨hn, h⟩
  · exact enter?_some h
  · have empty : below (c.here :: c.above) c.tree.children 0 = [] := enter?_none hn
    rw [rest, empty, List.nil_append]
    exact leave?_some h

theorem next?_none {c : Cursor} (h : c.next? = none) : c.rest = [] := by
  rw [next?, Option.or_eq_none_iff] at h
  have empty : below (c.here :: c.above) c.tree.children 0 = [] := enter?_none h.1
  rw [rest, empty, leave?_none h.2]
  rfl

theorem visits_eq (c : Cursor) : c.visits = c :: c.rest := by
  fun_induction visits c with
  | case1 c ih =>
      cases hn : c.next? with
      | none => simp [next?_none hn]
      | some next => simp [next?_some hn, ih next hn]

end Cursor

namespace Tree

theorem preorder_eq (t : Tree) :
    t.preorder = Cursor.root t :: Cursor.below [(Cursor.root t).here] t.children 0 := by
  rw [preorder, Cursor.visits_eq]
  simp [Cursor.rest, Cursor.root, Cursor.later, Cursor.tree]

theorem isVisible_of_isError {t : Tree} (h : t.isError = true) : t.isVisible = true := by
  rw [isVisible, of_decide_eq_true h]
  rfl

theorem isVisible_of_isList {t : Tree} (h : t.isNonterminal .list = true) : t.isVisible = true := by
  rw [isVisible, of_decide_eq_true h]
  rfl

mutual

/-- Every node of a tree, hidden ones included, each before those below it. -/
def nodes : Tree → List Tree
  | .leaf token missing => [.leaf token missing]
  | .node label span children => .node label span children :: nodesRow children

def nodesRow : List Tree → List Tree
  | [] => []
  | t :: row => nodes t ++ nodesRow row

end

theorem nodes_eq (t : Tree) : t.nodes = t :: nodesRow t.children := by
  cases t with
  | leaf token missing => simp [nodes, children, nodesRow]
  | node label span children => simp [nodes, Tree.children]

theorem nodesRow_append (xs ys : List Tree) : nodesRow (xs ++ ys) = nodesRow xs ++ nodesRow ys := by
  induction xs with
  | nil => rfl
  | cons t xs ih => rw [List.cons_append, nodesRow, nodesRow, ih, List.append_assoc]

theorem mem_nodesRow {u : Tree} {row : List Tree} : u ∈ nodesRow row ↔ ∃ t ∈ row, u ∈ t.nodes := by
  induction row with
  | nil => simp [nodesRow]
  | cons t row ih => simp [nodesRow, ih]

end Tree

namespace Cursor

theorem map_tree_below (above : List Place) (row : List Tree) (index : Nat) :
    (below above row index).map tree = (Tree.nodesRow row).filter Tree.isVisible := by
  fun_induction below above row index with
  | case1 => simp [Tree.nodesRow]
  | case2 above t row index place ih₁ ih₂ =>
      rw [List.map_append, List.map_append, ih₁, ih₂, Tree.nodesRow, Tree.nodes_eq,
        List.filter_append, List.filter_cons]
      by_cases hv : t.isVisible
      · simp [hv, tree, place]
      · simp [hv]

end Cursor

theorem Tree.map_tree_preorder (t : Tree) :
    t.preorder.map Cursor.tree = t :: (nodesRow t.children).filter isVisible := by
  rw [preorder_eq, List.map_cons, Cursor.map_tree_below]
  rfl

theorem Diagnostic.all_eq_nil_iff (root : Tree) :
    Diagnostic.all root = [] ↔
      of? root = none ∧ ∀ t ∈ Tree.nodesRow root.children, t.isVisible → of? t = none := by
  have flat : Diagnostic.all root = (root.preorder.map Cursor.tree).filterMap of? := by
    rw [Diagnostic.all, List.filterMap_map]
    rfl
  rw [flat, Tree.map_tree_preorder, List.filterMap_eq_nil_iff]
  simp

/-! ## What a reader is told -/

/-- What a reader is told about a node: the number of visible nodes above it, its field, what it
is, whether it is missing from the text, and its place. -/
structure Shown where
  depth : Nat
  field : Option Field
  symbol : Symbol
  missing : Bool
  span : Span
  deriving DecidableEq

def Cursor.shown (c : Cursor) : Shown :=
  ⟨c.depth, c.field?, c.tree.symbol, c.tree.isMissing, c.tree.span⟩

namespace Tree

mutual

/-- What a reader is told about the nodes of a tree that has a field. -/
def shown (depth : Nat) (field : Option Field) : Tree → List Shown
  | .leaf token missing =>
      if token.kind.toSymbol.visible then
        [⟨depth, field, token.kind.toSymbol, missing, token.span⟩]
      else []
  | .node label span children =>
      if label.symbol.visible then
        ⟨depth, field, label.symbol, false, span⟩ ::
          shownRow (depth + 1) label.fields none 0 children
      else shownRow depth label.fields field 0 children

/-- What a reader is told about the nodes of a row of siblings under the given field entries, the
first of which has the given index.  A node without a field of its own has the given one. -/
def shownRow (depth : Nat) (entries : List FieldEntry) (field : Option Field) (index : Nat) :
    List Tree → List Shown
  | [] => []
  | t :: row =>
      if t.isExtra then shown depth none t ++ shownRow depth entries field index row
      else
        shown depth ((FieldEntry.own? entries index).or field) t ++
          shownRow depth entries field (index + 1) row

end

theorem shown_eq (depth : Nat) (field : Option Field) (t : Tree) :
    t.shown depth field =
      if t.isVisible then
        ⟨depth, field, t.symbol, t.isMissing, t.span⟩ ::
          shownRow (depth + 1) t.fields none 0 t.children
      else shownRow depth t.fields field 0 t.children := by
  cases t with
  | leaf token missing =>
      rw [shown, Tree.children, shownRow, shownRow]
      rfl
  | node label span children =>
      rw [shown]
      rfl

end Tree

namespace Cursor

/-- The field under which a node stands is the one that its production puts on it, or else the one
that a hidden parent passes on. -/
theorem fieldOf?_cons (here up : Place) (above : List Place) :
    fieldOf? here (up :: above) =
      if here.tree.isExtra then none
      else (FieldEntry.own? up.tree.fields here.index).or
        (if up.tree.isVisible then none else fieldOf? up above) := by
  rw [fieldOf?]
  split
  · rfl
  · split
    · next f hf => simp [hf]
    · next hn => simp [hn]

theorem map_shown_below (places : List Place) (row : List Tree) (index : Nat) (up : Place)
    (above : List Place) (h : places = up :: above) :
    (below places row index).map shown =
      Tree.shownRow (places.filter (·.tree.isVisible)).length up.tree.fields
        (if up.tree.isVisible then none else fieldOf? up above) index row := by
  fun_induction below places row index generalizing up above with
  | case1 => simp [Tree.shownRow]
  | case2 places t row index place ih₁ ih₂ =>
      have inner := ih₁ place places rfl
      have outer := ih₂ up above h
      have field : fieldOf? place places =
          if t.isExtra then none
          else (FieldEntry.own? up.tree.fields index).or
            (if up.tree.isVisible then none else fieldOf? up above) := by
        rw [h, fieldOf?_cons]
      rw [List.map_append, List.map_append, inner, outer, Tree.shownRow, Tree.shown_eq,
        Tree.shown_eq]
      by_cases hv : t.isVisible <;> by_cases he : t.isExtra <;>
        simp [hv, he, place, field, shown, depth, field?, tree, Place.nextIndex]

end Cursor

/-- What a reader is told about a whole tree does not depend on how it walks through it. -/
theorem Tree.map_shown_preorder (t : Tree) :
    t.preorder.map Cursor.shown =
      ⟨0, none, t.symbol, t.isMissing, t.span⟩ ::
        shownRow (if t.isVisible then 1 else 0) t.fields none 0 t.children := by
  rw [preorder_eq, List.map_cons, Cursor.map_shown_below _ _ _ _ [] rfl]
  by_cases hv : t.isVisible <;>
    simp [hv, Cursor.root, Cursor.shown, Cursor.depth, Cursor.field?, Cursor.fieldOf?, Cursor.tree]

end MettaSyntax
