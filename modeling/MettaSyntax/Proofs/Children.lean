import MettaSyntax.Proofs.Order

/-! # What stands just below a node

`Tree.labelledChildren` lists the visible nodes just below a tree, those below a hidden child in its
stead, each with its field.  It is computed from the tree alone, and it is what a cursor comes to when
it steps to the first child of a visible node and on from sibling to sibling. -/

set_option autoImplicit false

namespace MettaSyntax

/-- A node and the field under which it stands. -/
abbrev Labelled := Option Field × Tree

namespace Tree

mutual

/-- The nodes that a tree under a field shows to its parent, each with its field. -/
def labelled (field : Option Field) : Tree → List Labelled
  | .leaf token missing =>
      if token.kind.toSymbol.visible then [(field, .leaf token missing)] else []
  | .node label span children =>
      if label.symbol.visible then [(field, .node label span children)]
      else labelledRow label.fields field 0 children

/-- The nodes that a row of siblings under the given field entries shows to its parent.  A node
without a field of its own has the given one. -/
def labelledRow (entries : List FieldEntry) (field : Option Field) (index : Nat) :
    List Tree → List Labelled
  | [] => []
  | t :: row =>
      if t.isExtra then labelled none t ++ labelledRow entries field index row
      else
        labelled ((FieldEntry.own? entries index).or field) t ++
          labelledRow entries field (index + 1) row

end

def labelledChildren (t : Tree) : List Labelled :=
  labelledRow t.fields none 0 t.children

theorem labelled_eq (field : Option Field) (t : Tree) :
    t.labelled field =
      if t.isVisible then [(field, t)] else labelledRow t.fields field 0 t.children := by
  cases t with
  | leaf token missing =>
      rw [labelled, Tree.children, labelledRow]
      rfl
  | node label span children =>
      rw [labelled]
      rfl

@[simp] theorem labelledRow_nil (entries : List FieldEntry) (field : Option Field) (index : Nat) :
    labelledRow entries field index [] = [] := by
  rw [labelledRow]

theorem labelledRow_cons_extra {entries : List FieldEntry} {field : Option Field} {index : Nat}
    {t : Tree} (h : t.isExtra = true) (row : List Tree) :
    labelledRow entries field index (t :: row) =
      t.labelled none ++ labelledRow entries field index row := by
  rw [labelledRow, if_pos h]

theorem labelledRow_cons {entries : List FieldEntry} {field : Option Field} {index : Nat}
    {t : Tree} (h : t.isExtra = false) (row : List Tree) :
    labelledRow entries field index (t :: row) =
      t.labelled ((FieldEntry.own? entries index).or field) ++
        labelledRow entries field (index + 1) row := by
  rw [labelledRow, if_neg (by simp [h])]

theorem labelledRow_append (entries : List FieldEntry) (field : Option Field) (index : Nat)
    (xs ys : List Tree) :
    labelledRow entries field index (xs ++ ys) =
      labelledRow entries field index xs ++
        labelledRow entries field (index + (counted xs).length) ys := by
  induction xs generalizing index with
  | nil => simp
  | cons t xs ih =>
      rw [List.cons_append]
      by_cases extra : t.isExtra = true
      · rw [labelledRow_cons_extra extra, labelledRow_cons_extra extra, ih,
          counted_cons_extra extra, List.append_assoc]
      · have counts : t.isExtra = false := by simpa using extra
        rw [labelledRow_cons counts, labelledRow_cons counts, ih, counted_cons counts,
          List.append_assoc, List.length_cons, Nat.add_assoc, Nat.add_comm 1]

mutual

theorem map_snd_labelled (field : Option Field) (t : Tree) :
    (t.labelled field).map Prod.snd = t.seen := by
  match t with
  | .leaf token missing =>
      rw [labelled_eq, seen, visibleChildren, Tree.children, labelledRow_nil]
      split <;> rfl
  | .node label span children =>
      have below := map_snd_labelledRow label.fields field 0 children
      rw [labelled_eq, seen, visibleChildren]
      split
      · rfl
      · exact below

/-- The nodes that a row shows do not depend on their fields. -/
theorem map_snd_labelledRow (entries : List FieldEntry) (field : Option Field) (index : Nat)
    (row : List Tree) : (labelledRow entries field index row).map Prod.snd = visibleRow row := by
  match row with
  | [] => simp [visibleRow]
  | t :: row =>
      rw [visibleRow_cons, labelledRow]
      split
      · rw [List.map_append, map_snd_labelled none t, map_snd_labelledRow entries field index row]
      · rw [List.map_append, map_snd_labelled _ t, map_snd_labelledRow entries field _ row]

end

theorem map_snd_labelledChildren (t : Tree) :
    t.labelledChildren.map Prod.snd = t.visibleChildren := by
  rw [labelledChildren, map_snd_labelledRow, visibleChildren_eq]

/-! ## Visible children are nodes below -/

mutual

theorem seen_subset_nodes (t : Tree) : t.seen ⊆ t.nodes := by
  match t with
  | .leaf token missing =>
      rw [seen, nodes, visibleChildren]
      split <;> simp
  | .node label span children =>
      have below := visibleRow_subset_nodesRow children
      rw [seen, nodes, visibleChildren]
      split
      · simp
      · exact List.Subset.trans below (List.subset_cons_self _ _)

theorem visibleRow_subset_nodesRow (row : List Tree) : visibleRow row ⊆ nodesRow row := by
  match row with
  | [] => simp [visibleRow]
  | t :: row =>
      rw [visibleRow_cons, nodesRow]
      exact List.append_subset.2
        ⟨List.Subset.trans (seen_subset_nodes t) (List.subset_append_left _ _),
          List.Subset.trans (visibleRow_subset_nodesRow row) (List.subset_append_right _ _)⟩

end

theorem isVisible_of_mem_visibleRow {u : Tree} {row : List Tree} (h : u ∈ visibleRow row) :
    u.isVisible = true := by
  match row with
  | [] => simp [visibleRow] at h
  | .leaf token missing :: row =>
      rw [visibleRow, visibleChildren] at h
      rcases List.mem_append.1 h with h | h
      · split at h
        · next visible => exact List.mem_singleton.1 h ▸ visible
        · cases h
      · exact isVisible_of_mem_visibleRow h
  | .node label span children :: row =>
      rw [visibleRow, visibleChildren] at h
      rcases List.mem_append.1 h with h | h
      · split at h
        · next visible => exact List.mem_singleton.1 h ▸ visible
        · exact isVisible_of_mem_visibleRow h
      · exact isVisible_of_mem_visibleRow h

end Tree

/-! ## What a cursor comes to -/

namespace Cursor

def label (c : Cursor) : Labelled :=
  (c.field?, c.tree)

/-- The nodes that a cursor comes to in a row of siblings, going into hidden ones only. -/
def level (above : List Place) : List Tree → Nat → List Cursor
  | [], _ => []
  | t :: row, index =>
      let place : Place := ⟨t, row, index⟩
      (if t.isVisible then [⟨place, above⟩] else level (place :: above) t.children 0) ++
        level above row place.nextIndex
  termination_by row => Tree.sizes row
  decreasing_by
    · rw [Tree.sizes_cons, Tree.size_eq]; omega
    · rw [Tree.sizes_cons, Tree.size_eq]; omega

/-- The nodes that come after a row of hidden places and have the same visible parent. -/
def beyond : List Place → List Cursor
  | [] => []
  | up :: above =>
      if up.tree.isVisible then [] else level above up.after up.nextIndex ++ beyond above

/-- The nodes after a place that have the same visible parent. -/
def aside (here : Place) (above : List Place) : List Cursor :=
  level above here.after here.nextIndex ++ beyond above

@[simp] theorem level_nil (above : List Place) (index : Nat) : level above [] index = [] := by
  simp [level]

theorem level_cons (above : List Place) (t : Tree) (row : List Tree) (index : Nat) :
    level above (t :: row) index =
      (if t.isVisible then [⟨⟨t, row, index⟩, above⟩]
        else level (⟨t, row, index⟩ :: above) t.children 0) ++
        level above row (Place.nextIndex ⟨t, row, index⟩) := by
  rw [level]

theorem level_of_enter?_none {above : List Place} {row : List Tree} {index : Nat}
    (h : enter? above row index = none) : level above row index = [] := by
  fun_induction enter? above row index with
  | case1 => exact level_nil _ _
  | case2 above t row index place hv => simp at h
  | case3 above t row index place hv c hc ih => simp at h
  | case4 above t row index place hv hn ih₁ ih₂ =>
      rw [level_cons, if_neg hv, ih₁ hn, ih₂ h]
      rfl

theorem level_of_enter?_some {above : List Place} {row : List Tree} {index : Nat} {c : Cursor}
    (h : enter? above row index = some c) :
    level above row index ++ beyond above = c :: aside c.here c.above := by
  fun_induction enter? above row index with
  | case1 => simp at h
  | case2 above t row index place hv =>
      simp only [Option.some.injEq] at h
      subst h
      rw [level_cons, if_pos hv]
      rfl
  | case3 above t row index place hv d hd ih =>
      simp only [Option.some.injEq] at h
      subst h
      rw [level_cons, if_neg hv, ← ih hd, beyond, if_neg hv, List.append_assoc]
  | case4 above t row index place hv hn ih₁ ih₂ =>
      have empty : level (place :: above) t.children 0 = [] := level_of_enter?_none hn
      rw [level_cons, if_neg hv, empty]
      exact ih₂ h

theorem aside_of_following?_some {here : Place} {above : List Place} {c : Cursor}
    (h : following? here above = some c) : aside here above = c :: aside c.here c.above := by
  fun_induction following? here above with
  | case1 here => exact level_of_enter?_some h
  | case2 here up above d hd =>
      simp only [Option.some.injEq] at h
      subst h
      exact level_of_enter?_some hd
  | case3 here up above hn hv => simp at h
  | case4 here up above hn hv ih =>
      rw [aside, level_of_enter?_none hn, List.nil_append, beyond, if_neg hv]
      exact ih h

theorem aside_of_following?_none {here : Place} {above : List Place}
    (h : following? here above = none) : aside here above = [] := by
  fun_induction following? here above with
  | case1 here =>
      rw [aside, level_of_enter?_none h]
      rfl
  | case2 here up above d hd => simp at h
  | case3 here up above hn hv =>
      rw [aside, level_of_enter?_none hn, beyond, if_pos hv]
      rfl
  | case4 here up above hn hv ih =>
      rw [aside, level_of_enter?_none hn, List.nil_append, beyond, if_neg hv]
      exact ih h

theorem siblings_eq (c : Cursor) : c.siblings = c :: aside c.here c.above := by
  fun_induction siblings c with
  | case1 c ih =>
      cases hn : c.nextSibling? with
      | none => rw [aside_of_following?_none hn]
      | some next => rw [aside_of_following?_some hn, ← ih next hn]

/-- Below a visible node a cursor comes to what stands there, and to nothing that comes after. -/
theorem childCursors_eq {c : Cursor} (h : c.tree.isVisible = true) :
    c.childCursors = level (c.here :: c.above) c.tree.children 0 := by
  have last : beyond (c.here :: c.above) = [] := if_pos h
  rw [childCursors]
  cases hf : c.firstChild? with
  | none =>
      have empty : level (c.here :: c.above) c.tree.children 0 = [] := level_of_enter?_none hf
      rw [empty]
      rfl
  | some first =>
      have all := level_of_enter?_some hf
      rw [last, List.append_nil] at all
      rw [Option.elim, siblings_eq]
      exact all.symm

theorem map_label_level (places : List Place) (row : List Tree) (index : Nat) (up : Place)
    (above : List Place) (h : places = up :: above) :
    (level places row index).map label =
      Tree.labelledRow up.tree.fields
        (if up.tree.isVisible then none else fieldOf? up above) index row := by
  fun_induction level places row index generalizing up above with
  | case1 => simp
  | case2 places t row index place ih₁ ih₂ =>
      have inner := ih₁ place places rfl
      have outer := ih₂ up above h
      have field : fieldOf? place places =
          if t.isExtra then none
          else (FieldEntry.own? up.tree.fields index).or
            (if up.tree.isVisible then none else fieldOf? up above) := by
        rw [h, fieldOf?_cons]
      rw [List.map_append, outer, Tree.labelledRow, Tree.labelled_eq, Tree.labelled_eq]
      by_cases hv : t.isVisible <;> by_cases he : t.isExtra <;>
        simp [hv, he, place, field, label, field?, tree, Place.nextIndex, inner]

/-- What a cursor comes to below a visible node depends on the node alone. -/
theorem map_label_childCursors {c : Cursor} (h : c.tree.isVisible = true) :
    c.childCursors.map label = c.tree.labelledChildren := by
  have visible : c.here.tree.isVisible = true := h
  rw [childCursors_eq h, map_label_level _ _ _ _ _ rfl, if_pos visible]
  rfl

theorem map_tree_childCursors {c : Cursor} (h : c.tree.isVisible = true) :
    c.childCursors.map tree = c.tree.visibleChildren := by
  rw [← Tree.map_snd_labelledChildren, ← map_label_childCursors h, List.map_map]
  rfl

end Cursor

end MettaSyntax
