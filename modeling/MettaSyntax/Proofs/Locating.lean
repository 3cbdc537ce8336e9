import MettaSyntax.Proofs.Lossless
import MettaSyntax.Proofs.Matches
import MettaSyntax.Tree.Locate

/-! # Where a node is found

The nodes of a tree whose leaves are in order begin in order, and the way down to a stretch of a leaf
leads through every node above the leaf.  So the innermost list around a leaf depends on any list
that holds the leaf alone. -/

set_option autoImplicit false

namespace MettaSyntax

namespace Tree

section Rows

variable {lo hi : Nat} {row : List Tree}

theorem inOrder_of_leavesRow (extent : ∀ t ∈ row, t.Extent) (ordered : InOrder lo (leavesRow row) hi) :
    InOrder lo row hi := by
  induction row generalizing lo with
  | nil => exact ordered
  | cons t row ih =>
      rw [leavesRow_cons] at ordered
      obtain ⟨mid, first, rest⟩ := inOrder_append.1 ordered
      have head := (extent t List.mem_cons_self).inOrder first
      exact inOrder_append.2 ⟨mid, head, ih (fun u hu => extent u (List.mem_cons_of_mem _ hu)) rest⟩

theorem InOrder.within (ordered : InOrder lo row hi) {t : Tree} (ht : t ∈ row) :
    lo ≤ t.span.start.byte ∧ t.span.start.byte ≤ t.span.stop.byte ∧ t.span.stop.byte ≤ hi := by
  obtain ⟨before, after, rfl⟩ := List.append_of_mem ht
  obtain ⟨mid, first, above, inside, last⟩ := inOrder_append.1 ordered
  exact ⟨Nat.le_trans first.le above, inside, last.le⟩

mutual

theorem leaves_infix_of_mem_nodes {t u : Tree} (h : u ∈ t.nodes) : u.leaves <:+: t.leaves := by
  match t with
  | .leaf token missing =>
      rw [nodes] at h
      obtain rfl := List.mem_singleton.1 h
      exact List.infix_rfl
  | .node label span children =>
      rw [nodes] at h
      rcases List.mem_cons.1 h with rfl | below
      · exact List.infix_rfl
      · rw [leaves]
        exact leaves_infix_of_mem_nodesRow below

/-- The leaves of a node stand together among those of the row. -/
theorem leaves_infix_of_mem_nodesRow {row : List Tree} {u : Tree} (h : u ∈ nodesRow row) :
    u.leaves <:+: leavesRow row := by
  match row with
  | [] => cases h
  | t :: row =>
      rw [nodesRow] at h
      rw [leavesRow_cons]
      rcases List.mem_append.1 h with here | later
      · exact (leaves_infix_of_mem_nodes here).trans (List.prefix_append _ _).isInfix
      · exact (leaves_infix_of_mem_nodesRow later).trans (List.suffix_append _ _).isInfix

end

/-- Every node lies within the stretch of the leaves. -/
theorem within_of_mem_nodesRow (ordered : InOrder lo (leavesRow row) hi) {u : Tree}
    (hu : u ∈ nodesRow row) (extent : u.Extent) :
    lo ≤ u.span.start.byte ∧ u.span.start.byte ≤ u.span.stop.byte ∧ u.span.stop.byte ≤ hi := by
  obtain ⟨before, after, split⟩ := leaves_infix_of_mem_nodesRow hu
  rw [← split] at ordered
  obtain ⟨high, front, last⟩ := inOrder_append.1 ordered
  obtain ⟨low, first, middle⟩ := inOrder_append.1 front
  obtain ⟨above, inside, below⟩ := extent.inOrder middle
  exact ⟨Nat.le_trans first.le above, inside, Nat.le_trans below.le last.le⟩

end Rows

mutual

theorem nodes_sorted {t : Tree} (extent : ∀ u ∈ t.nodes, u.Extent) {lo hi : Nat}
    (ordered : InOrder lo t.leaves hi) :
    t.nodes.Pairwise fun u v => u.span.start.byte ≤ v.span.start.byte := by
  match t with
  | .leaf token missing =>
      rw [nodes]
      exact List.pairwise_singleton _ _
  | .node label span children =>
      have self := extent _ (mem_nodes_self _)
      obtain ⟨-, inside⟩ := self.inOrder_leaves ordered
      rw [nodes] at extent ⊢
      rw [leaves] at inside
      have below : ∀ u ∈ nodesRow children, u.Extent := fun u hu => extent u (List.mem_cons_of_mem _ hu)
      refine List.pairwise_cons.2 ⟨fun u hu => ?_, nodesRow_sorted below inside⟩
      exact (within_of_mem_nodesRow inside hu (below u hu)).1

/-- The nodes below a row, each before those below it, begin in order. -/
theorem nodesRow_sorted {row : List Tree} (extent : ∀ u ∈ nodesRow row, u.Extent) {lo hi : Nat}
    (ordered : InOrder lo (leavesRow row) hi) :
    (nodesRow row).Pairwise fun u v => u.span.start.byte ≤ v.span.start.byte := by
  match row with
  | [] => exact List.Pairwise.nil
  | t :: row =>
      rw [nodesRow] at extent ⊢
      rw [leavesRow_cons] at ordered
      obtain ⟨mid, first, rest⟩ := inOrder_append.1 ordered
      have here : ∀ u ∈ t.nodes, u.Extent := fun u hu => extent u (List.mem_append_left _ hu)
      have later : ∀ u ∈ nodesRow row, u.Extent := fun u hu => extent u (List.mem_append_right _ hu)
      refine List.pairwise_append.2 ⟨nodes_sorted here first, nodesRow_sorted later rest, ?_⟩
      intro u hu v hv
      have single : InOrder lo (leavesRow [t]) mid := by simpa using first
      have mem : u ∈ nodesRow [t] := mem_nodesRow.2 ⟨t, List.mem_singleton_self t, hu⟩
      have before := within_of_mem_nodesRow single mem (here u hu)
      have after := within_of_mem_nodesRow rest hv (later v hv)
      omega

end

/-! ## The way down -/

/-- The child around a stretch that is not empty is the one within which the stretch lies. -/
theorem childAround?_eq {t c : Tree} {s : Span} (hc : c ∈ t.children) {lo hi : Nat}
    (ordered : InOrder lo t.children hi) (width : s.start.byte < s.stop.byte)
    (start : c.span.start.byte ≤ s.start.byte) (stop : s.stop.byte ≤ c.span.stop.byte)
    (inner : c.children ≠ []) : t.childAround? s = some c := by
  obtain ⟨before, after, split⟩ := List.append_of_mem hc
  rw [childAround?, split]
  rw [split] at ordered
  clear hc split
  induction before generalizing lo with
  | nil =>
      simp only [List.nil_append]
      rw [List.takeWhile_cons_of_pos (by simpa using start), List.find?_cons_of_pos]
      simp [stop, inner]
  | cons b before ih =>
      obtain ⟨above, inside, rest⟩ := ordered
      obtain ⟨mid, first, here, -⟩ := inOrder_append.1 rest
      have early := first.le
      rw [List.cons_append, List.takeWhile_cons_of_pos (by simp; omega), List.find?_cons_of_neg]
      · exact ih rest
      · simp
        omega

theorem children_ne_nil_of_mem_leaves {t u : Tree} (hu : u ∈ t.leaves)
    (node : ∀ token missing, t ≠ .leaf token missing) : t.children ≠ [] := by
  cases t with
  | leaf token missing => exact absurd rfl (node token missing)
  | node label span children =>
      rw [Tree.leaves] at hu
      rintro (rfl : children = [])
      cases hu

theorem leavesRow_children {t : Tree} (h : t.children ≠ []) : leavesRow t.children = t.leaves := by
  cases t with
  | leaf token missing => exact absurd rfl h
  | node label span children => rw [Tree.leaves, Tree.children]

theorem exists_of_mem_visibleRow {row : List Tree} {u : Tree} (h : u ∈ visibleRow row) :
    ∃ c ∈ row, u ∈ c.seen := by
  induction row with
  | nil =>
      rw [visibleRow] at h
      cases h
  | cons c row ih =>
      rw [visibleRow_cons] at h
      rcases List.mem_append.1 h with here | later
      · exact ⟨c, List.mem_cons_self, here⟩
      · obtain ⟨d, hd, seen⟩ := ih later
        exact ⟨d, List.mem_cons_of_mem _ hd, seen⟩

section Descent

variable {name : Tree} (width : name.span.start.byte < name.span.stop.byte)
include width

/-- The way down to a leaf leads through the child that holds the leaf. -/
theorem lowestListAround_step {t c : Tree} (hc : c ∈ t.children) (inner : c.children ≠ [])
    (held : name ∈ c.leaves) (extent : ∀ u ∈ nodesRow t.children, u.Extent) {lo hi : Nat}
    (ordered : InOrder lo (leavesRow t.children) hi) (best : Option Tree) :
    lowestListAround name.span best t =
        lowestListAround name.span (if c.isNonterminal .list then some c else best) c ∧
      (∀ u ∈ nodesRow c.children, u.Extent) ∧
      ∃ lo' hi', InOrder lo' (leavesRow c.children) hi' := by
  have nodesC : ∀ u ∈ c.nodes, u.Extent := fun u hu => extent u (mem_nodesRow.2 ⟨c, hc, hu⟩)
  have row : InOrder lo t.children hi := inOrder_of_leavesRow
    (fun u hu => extent u (mem_nodesRow_of_mem hu)) ordered
  obtain ⟨lo', hi', leavesC⟩ := ordered.infix (infix_leavesRow hc)
  obtain ⟨-, inside⟩ := (nodesC c (mem_nodes_self c)).inOrder_leaves leavesC
  obtain ⟨start, -, stop⟩ := inside.within held
  have way : t.childAround? name.span = some c := childAround?_eq hc row width start stop inner
  refine ⟨?_, fun u hu => nodesC u ?_, lo', hi', ?_⟩
  · rw [lowestListAround]
    split
    · next d found =>
        obtain rfl : c = d := Option.some.inj (way.symm.trans found)
        rfl
    · next none => cases way.symm.trans none
  · rw [nodes_eq]
    exact List.mem_cons_of_mem _ hu
  · rwa [leavesRow_children inner]

/-- On the way down to a leaf every list that holds the leaf is passed. -/
theorem lowestListAround_eq {list : Tree} (isList : list.isNonterminal .list = true)
    (held : name ∈ list.leaves) (t : Tree) (below : list ∈ nodesRow t.children)
    (extent : ∀ u ∈ nodesRow t.children, u.Extent) {lo hi : Nat}
    (ordered : InOrder lo (leavesRow t.children) hi) (best : Option Tree) :
    lowestListAround name.span best t = lowestListAround name.span (some list) list := by
  obtain ⟨c, hc, mem⟩ := mem_nodesRow.1 below
  have nameC : name ∈ c.leaves := (leaves_infix_of_mem_nodes mem).subset held
  have inner : c.children ≠ [] := by
    apply children_ne_nil_of_mem_leaves nameC
    rintro token missing rfl
    rw [nodes] at mem
    rw [List.mem_singleton.1 mem] at isList
    exact Completion.symbol_leaf_ne token missing (by simpa [isNonterminal] using isList)
  obtain ⟨step, extentC, lo', hi', orderedC⟩ :=
    lowestListAround_step width hc inner nameC extent ordered best
  rw [step]
  rw [nodes_eq] at mem
  rcases List.mem_cons.1 mem with rfl | deeper
  · rw [if_pos isList]
  · exact lowestListAround_eq isList held c deeper extentC orderedC _
  termination_by t.size
  decreasing_by exact size_lt_of_mem hc

/-- The way down to a leaf leads through the visible child that holds the leaf, and through no list
before it. -/
theorem lowestListAround_visible {u : Tree} (inner : u.children ≠ []) (held : name ∈ u.leaves)
    (t : Tree) (shown : u ∈ t.visibleChildren) (extent : ∀ v ∈ nodesRow t.children, v.Extent)
    {lo hi : Nat} (ordered : InOrder lo (leavesRow t.children) hi) (best : Option Tree) :
    lowestListAround name.span best t =
        lowestListAround name.span (if u.isNonterminal .list then some u else best) u ∧
      (∀ v ∈ nodesRow u.children, v.Extent) ∧
      ∃ lo' hi', InOrder lo' (leavesRow u.children) hi' := by
  rw [visibleChildren_eq] at shown
  obtain ⟨c, hc, seen⟩ := exists_of_mem_visibleRow shown
  rw [Tree.seen] at seen
  split at seen
  · obtain rfl := List.mem_singleton.1 seen
    exact lowestListAround_step width hc inner held extent ordered best
  · next hidden =>
      have below : u ∈ nodesRow c.children := by
        rw [visibleChildren_eq] at seen
        exact visibleRow_subset_nodesRow _ seen
      have nameC : name ∈ c.leaves := by
        apply (leaves_infix_of_mem_nodes (t := c) (u := u) _).subset held
        rw [nodes_eq]
        exact List.mem_cons_of_mem _ below
      have ne : c.children ≠ [] := by
        intro none
        rw [none] at below
        cases below
      have plain : c.isNonterminal .list = false := by
        rw [isVisible] at hidden
        rw [isNonterminal, decide_eq_false_iff_not]
        intro list
        rw [list] at hidden
        exact hidden rfl
      obtain ⟨step, extentC, lo', hi', orderedC⟩ :=
        lowestListAround_step width hc ne nameC extent ordered best
      rw [if_neg (by simp [plain])] at step
      rw [step]
      exact lowestListAround_visible inner held c seen extentC orderedC best
  termination_by t.size
  decreasing_by exact size_lt_of_mem hc

end Descent

/-- The way down ends above leaves. -/
theorem lowestListAround_of_leaves {t : Tree} (h : ∀ c ∈ t.children, c.children = []) (s : Span)
    (best : Option Tree) : lowestListAround s best t = best := by
  rw [lowestListAround]
  split
  · next c found =>
      have inner := (List.find?_some found)
      simp [h c (mem_of_childAround? found)] at inner
  · rfl

end Tree

end MettaSyntax
