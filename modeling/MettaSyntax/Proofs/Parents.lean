import MettaSyntax.Proofs.Children

/-! # Where a cursor stands

Every node that the walk through a tree comes to, the root apart, is a child of another node of the
tree, with its later siblings after it.  Where the other node is visible it is the parent that a
cursor goes up to, and a last child is the last node that a cursor sees below it. -/

set_option autoImplicit false

namespace MettaSyntax

open MettaSyntax.Tree

namespace Cursor

/-- A cursor stands on a child of the node of another one. -/
structure Under (c up : Cursor) : Prop where
  above : c.above = up.here :: up.above
  child : ∃ before, up.tree.children = before ++ c.tree :: c.here.after ∧
    c.here.index = (counted before).length

theorem nextIndex_counted {before : List Tree} {p : Place} (h : p.index = (counted before).length) :
    p.nextIndex = (counted (before ++ [p.tree])).length := by
  rw [Place.nextIndex, counted_append]
  by_cases extra : p.tree.isExtra = true
  · rw [if_pos extra, counted_cons_extra extra, counted_nil, List.append_nil, h]
  · rw [if_neg extra, counted_cons (by simpa using extra), List.length_append, h]
    rfl

/-- Every visible node of a row of children is a child of the node that the row is below, or of one
further down. -/
theorem exists_under {up : Cursor} {places : List Place} {before row : List Tree} {index : Nat}
    (top : places = up.here :: up.above) (split : up.tree.children = before ++ row)
    (count : index = (counted before).length) {c : Cursor} (hc : c ∈ below places row index) :
    ∃ v, c.Under v ∧ (v = up ∨ v.tree ∈ nodesRow row ∧
      (v.tree.isVisible = true → v ∈ below places row index)) := by
  fun_induction below places row index generalizing up before with
  | case1 => cases hc
  | case2 places t row index place ihBelow =>
      rename_i ihLater
      rcases List.mem_append.1 hc with first | later
      · rcases List.mem_append.1 first with here | inner
        · split at here
          · obtain rfl := List.mem_singleton.1 here
            exact ⟨up, ⟨top, before, split, count⟩, .inl rfl⟩
          · cases here
        · have top' : place :: places =
              (⟨place, places⟩ : Cursor).here :: (⟨place, places⟩ : Cursor).above := rfl
          have all : (⟨place, places⟩ : Cursor).tree.children = [] ++ t.children := rfl
          obtain ⟨v, under, same | ⟨node, mem⟩⟩ := ihBelow top' all rfl inner
          · refine ⟨v, under, .inr ⟨?_, fun visible => ?_⟩⟩
            · rw [same, nodesRow]
              exact List.mem_append_left _ (by rw [nodes_eq]; exact List.mem_cons_self)
            · have seen : t.isVisible = true := by rwa [same] at visible
              rw [same, if_pos seen]
              exact List.mem_append_left _ (List.mem_append_left _ (List.mem_singleton_self _))
          · refine ⟨v, under, .inr ⟨?_, fun visible => ?_⟩⟩
            · rw [nodesRow, nodes_eq]
              exact List.mem_append_left _ (List.mem_cons_of_mem _ node)
            · exact List.mem_append_left _ (List.mem_append_right _ (mem visible))
      · have split' : up.tree.children = before ++ [t] ++ row := by simp [split]
        obtain ⟨v, under, same | ⟨node, mem⟩⟩ :=
          ihLater top split' (nextIndex_counted (p := ⟨t, row, index⟩) count) later
        · exact ⟨v, under, .inl same⟩
        · refine ⟨v, under, .inr ⟨?_, fun visible => List.mem_append_right _ (mem visible)⟩⟩
          rw [nodesRow]
          exact List.mem_append_right _ node

theorem parent?_eq {c up : Cursor} (h : c.Under up) (visible : up.tree.isVisible = true) :
    c.parent? = some up := by
  obtain ⟨here, above⟩ := up
  rw [parent?, h.above]
  cases above with
  | nil => rfl
  | cons next above =>
      have seen : here.tree.isVisible = true := visible
      rw [nearest?_cons_cons, if_pos seen]

/-- The cursors on the last of a row of siblings come last. -/
theorem level_append (above : List Place) (before row : List Tree) (index : Nat) :
    ∃ first, level above (before ++ row) index =
      first ++ level above row (index + (counted before).length) := by
  induction before generalizing index with
  | nil => exact ⟨[], rfl⟩
  | cons t before ih =>
      obtain ⟨first, rest⟩ := ih (Place.nextIndex ⟨t, before ++ row, index⟩)
      have count : Place.nextIndex ⟨t, before ++ row, index⟩ + (counted before).length =
          index + (counted (t :: before)).length := by
        rw [Place.nextIndex]
        by_cases extra : t.isExtra = true
        · rw [if_pos extra, counted_cons_extra extra]
        · rw [if_neg extra, counted_cons (by simpa using extra), List.length_cons, Nat.add_right_comm]
          rfl
      rw [List.cons_append, level_cons, rest, count, ← List.append_assoc]
      exact ⟨_, rfl⟩

/-- A visible last child is the last node that a cursor on its parent sees below it. -/
theorem getLast?_childCursors {c up : Cursor} (h : c.Under up) (last : c.here.after = [])
    (visible : c.tree.isVisible = true) (seen : up.tree.isVisible = true) :
    up.childCursors.getLast? = some c := by
  obtain ⟨before, split, count⟩ := h.child
  obtain ⟨first, rest⟩ := level_append (up.here :: up.above) before [c.tree] 0
  have here : level (up.here :: up.above) [c.tree] (0 + (counted before).length) = [c] := by
    rw [level_cons, if_pos visible, level_nil, Nat.zero_add, ← count, ← last, ← h.above]
    rfl
  rw [childCursors_eq seen, split, last, rest, here, List.getLast?_concat]

end Cursor

/-- Every node of a tree but its root is a child of another node of it. -/
theorem Tree.exists_under {t : Tree} {c : Cursor} (hc : c ∈ t.preorder) :
    c = Cursor.root t ∨
      ∃ up, c.Under up ∧ up.tree ∈ t.nodes ∧ (up.tree.isVisible = true → up ∈ t.preorder) := by
  rw [preorder_eq, nodes_eq] at *
  rcases List.mem_cons.1 hc with root | below
  · exact .inl root
  · have top : [(Cursor.root t).here] = (Cursor.root t).here :: (Cursor.root t).above := rfl
    have all : (Cursor.root t).tree.children = [] ++ t.children := rfl
    obtain ⟨up, under, same | ⟨node, mem⟩⟩ := Cursor.exists_under top all rfl below
    · exact .inr ⟨up, under, same ▸ List.mem_cons_self, fun _ => same ▸ List.mem_cons_self⟩
    · exact .inr ⟨up, under, List.mem_cons_of_mem _ node, fun visible =>
        List.mem_cons_of_mem _ (mem visible)⟩

end MettaSyntax
