import MettaSyntax.Proofs.Formed
import MettaSyntax.Proofs.Preorder

/-! # Spans follow the text

`Tree.InOrder lo row hi` says that the spans of a row of trees follow one another, without overlap,
between the offsets `lo` and `hi`.  A well-formed tree spans its leaves, so all of its nodes are
in order as soon as its leaves are, and what it shows without children of its own is its leaves. -/

set_option autoImplicit false

namespace MettaSyntax

namespace Tree

/-- The spans of a row of trees follow one another between two offsets. -/
def InOrder : Nat → List Tree → Nat → Prop
  | lo, [], hi => lo ≤ hi
  | lo, t :: row, hi =>
      lo ≤ t.span.start.byte ∧ t.span.start.byte ≤ t.span.stop.byte ∧
        InOrder t.span.stop.byte row hi

theorem InOrder.mono {lo lo' hi hi' : Nat} {row : List Tree} (h : InOrder lo row hi)
    (hlo : lo' ≤ lo) (hhi : hi ≤ hi') : InOrder lo' row hi' := by
  induction row generalizing lo lo' with
  | nil =>
      have bound : lo ≤ hi := h
      show lo' ≤ hi'
      omega
  | cons t row ih =>
      obtain ⟨before, inside, after⟩ := h
      exact ⟨by omega, inside, ih after (Nat.le_refl _)⟩

theorem inOrder_append {lo hi : Nat} {xs ys : List Tree} :
    InOrder lo (xs ++ ys) hi ↔ ∃ mid, InOrder lo xs mid ∧ InOrder mid ys hi := by
  induction xs generalizing lo with
  | nil =>
      constructor
      · intro h
        exact ⟨lo, Nat.le_refl _, h⟩
      · rintro ⟨mid, h, h'⟩
        exact h'.mono h (Nat.le_refl _)
  | cons t xs ih =>
      rw [List.cons_append]
      constructor
      · rintro ⟨before, inside, after⟩
        obtain ⟨mid, h, h'⟩ := ih.1 after
        exact ⟨mid, ⟨before, inside, h⟩, h'⟩
      · rintro ⟨mid, ⟨before, inside, h⟩, h'⟩
        exact ⟨before, inside, ih.2 ⟨mid, h, h'⟩⟩

theorem InOrder.le {lo hi : Nat} {row : List Tree} (h : InOrder lo row hi) : lo ≤ hi := by
  induction row generalizing lo with
  | nil => exact h
  | cons t row ih =>
      obtain ⟨before, inside, after⟩ := h
      have := ih after
      omega

theorem InOrder.tight {lo hi : Nat} {row : List Tree} (h : InOrder lo row hi) {first last : Tree}
    (head : row.head? = some first) (tail : row.getLast? = some last) :
    lo ≤ first.span.start.byte ∧ last.span.stop.byte ≤ hi ∧
      InOrder first.span.start.byte row last.span.stop.byte := by
  obtain ⟨front, rfl⟩ := List.getLast?_eq_some_iff.1 tail
  obtain ⟨mid, inFront, before, inside, bound⟩ := inOrder_append.1 h
  have rest : InOrder mid [last] last.span.stop.byte := ⟨before, inside, Nat.le_refl _⟩
  cases front with
  | nil =>
      obtain rfl := Option.some.inj head
      have low : lo ≤ mid := inFront
      exact ⟨by omega, bound, Nat.le_refl _, inside, Nat.le_refl _⟩
  | cons t front =>
      obtain rfl := Option.some.inj head
      obtain ⟨low, inT, afterT⟩ := inFront
      exact ⟨low, bound, inOrder_append.2 ⟨mid, ⟨Nat.le_refl _, inT, afterT⟩, rest⟩⟩

theorem Extent.inOrder {t : Tree} (h : t.Extent) {lo hi : Nat} (ordered : InOrder lo t.leaves hi) :
    InOrder lo [t] hi := by
  obtain ⟨first, last, head, tail, span⟩ := h
  obtain ⟨low, high, inside⟩ := ordered.tight head tail
  refine ⟨?_, ?_, ?_⟩
  · rw [span]
    exact low
  · rw [span]
    exact inside.le
  · rw [span]
    exact high

theorem Extent.inOrder_leaves {t : Tree} (h : t.Extent) {lo hi : Nat}
    (ordered : InOrder lo t.leaves hi) :
    t.span.start.byte ≤ t.span.stop.byte ∧
      InOrder t.span.start.byte t.leaves t.span.stop.byte := by
  obtain ⟨first, last, head, tail, span⟩ := h
  obtain ⟨-, -, inside⟩ := ordered.tight head tail
  rw [span]
  exact ⟨inside.le, inside⟩

/-! ## What a tree shows -/

/-- The visible nodes that a tree shows to its parent: itself, or else those below it. -/
def seen (t : Tree) : List Tree :=
  if t.isVisible then [t] else t.visibleChildren

theorem visibleRow_cons (t : Tree) (row : List Tree) :
    visibleRow (t :: row) = t.seen ++ visibleRow row := by
  rw [visibleRow, seen]

theorem visibleRow_append (xs ys : List Tree) :
    visibleRow (xs ++ ys) = visibleRow xs ++ visibleRow ys := by
  induction xs with
  | nil => simp [visibleRow]
  | cons t xs ih => rw [List.cons_append, visibleRow_cons, visibleRow_cons, ih, List.append_assoc]

theorem visibleChildren_eq (t : Tree) : t.visibleChildren = visibleRow t.children := by
  cases t with
  | leaf token missing => rw [visibleChildren, Tree.children, visibleRow]
  | node label span children => rw [visibleChildren, Tree.children]

def Ordered (t : Tree) : Prop :=
  ∀ lo hi, InOrder lo t.leaves hi → InOrder lo t.seen hi

theorem visibleRow_inOrder {row : List Tree} {lo hi : Nat} (h : ∀ t ∈ row, t.Ordered)
    (ordered : InOrder lo (leavesRow row) hi) : InOrder lo (visibleRow row) hi := by
  induction row generalizing lo with
  | nil =>
      rw [visibleRow]
      exact ordered
  | cons t row ih =>
      rw [leavesRow_cons] at ordered
      obtain ⟨mid, first, rest⟩ := inOrder_append.1 ordered
      rw [visibleRow_cons]
      refine inOrder_append.2 ⟨mid, h t List.mem_cons_self lo mid first, ?_⟩
      exact ih (fun u hu => h u (List.mem_cons_of_mem _ hu)) rest

theorem ordered_leaf (token : Token) (missing : Bool) : (leaf token missing).Ordered := by
  intro lo hi ordered
  rw [seen]
  split
  · exact (extent_leaf token missing).inOrder ordered
  · rw [visibleChildren]
    exact ordered.le

theorem Formed.ordered {t : Tree} (h : Formed t) (hp : t.isPart = true) : t.Ordered := by
  induction h with
  | @leaf token missing inside miss => exact ordered_leaf token missing
  | @node label span row p admits place parts formed ih =>
      intro lo hi ordered
      rw [seen]
      split
      · exact ((Formed.node p admits place parts formed).extent hp).inOrder ordered
      · rw [visibleChildren]
        rw [leaves] at ordered
        exact visibleRow_inOrder (fun t ht => ih t ht (parts t ht)) ordered

theorem visible_of_ne_ending {token : Token} {missing : Bool} (h : token.kind ≠ .ending) :
    (leaf token missing).isVisible = true := by
  rw [isVisible, symbol]
  cases hk : token.kind <;> first | rfl | exact absurd hk h

theorem Formed.seen_ne_nil {t : Tree} (h : Formed t) (hp : t.isPart = true) : t.seen ≠ [] := by
  induction h with
  | leaf inside miss =>
      rw [seen, if_pos (visible_of_ne_ending inside)]
      simp
  | @node label span row p admits place parts formed ih =>
      obtain ⟨u, rest, rfl⟩ :=
        List.exists_cons_of_ne_nil ((Formed.node p admits place parts formed).ne_nil hp)
      rw [seen]
      split
      · simp
      · rw [visibleChildren, visibleRow_cons]
        have first := ih u List.mem_cons_self (parts u List.mem_cons_self)
        simp [first]

theorem Formed.visibleChildren_ne_nil {label : Label} {span : Span} {row : List Tree}
    (h : Formed (.node label span row)) (hp : (Tree.node label span row).isPart = true) :
    (Tree.node label span row).visibleChildren ≠ [] := by
  obtain ⟨u, rest, rfl⟩ := List.exists_cons_of_ne_nil (h.ne_nil hp)
  have first := (h.children u List.mem_cons_self).seen_ne_nil (h.parts u List.mem_cons_self)
  rw [visibleChildren, visibleRow_cons]
  simp [first]

def isChildless (t : Tree) : Bool :=
  t.visibleChildren.isEmpty

theorem childless_nodesRow {row : List Tree}
    (h : ∀ t ∈ row, (t.nodes.filter isVisible).filter isChildless = t.leaves) :
    ((nodesRow row).filter isVisible).filter isChildless = leavesRow row := by
  induction row with
  | nil => rfl
  | cons t row ih =>
      rw [nodesRow, List.filter_append, List.filter_append, leavesRow_cons,
        h t List.mem_cons_self, ih fun u hu => h u (List.mem_cons_of_mem _ hu)]

/-- Of the visible nodes of a part of a tree, those that show nothing below them are its leaves. -/
theorem Formed.childless {t : Tree} (h : Formed t) (hp : t.isPart = true) :
    (t.nodes.filter isVisible).filter isChildless = t.leaves := by
  induction h with
  | @leaf token missing inside miss =>
      have bare : (Tree.leaf token missing).isChildless = true := by simp [isChildless, visibleChildren]
      simp [nodes, visible_of_ne_ending inside, bare, leaves]
  | @node label span row p admits place parts formed ih =>
      have shows := (Formed.node p admits place parts formed).visibleChildren_ne_nil hp
      have below := childless_nodesRow fun t ht => ih t ht (parts t ht)
      have skip : (Tree.node label span row).isChildless = false := by simpa [isChildless] using shows
      rw [nodes, leaves, List.filter_cons]
      split
      · rw [List.filter_cons, if_neg (by simp [skip]), below]
      · exact below

/-! ## Every node below -/

theorem infix_leavesRow {t : Tree} {row : List Tree} (h : t ∈ row) :
    t.leaves <:+: leavesRow row := by
  obtain ⟨before, after, rfl⟩ := List.append_of_mem h
  refine ⟨leavesRow before, leavesRow after, ?_⟩
  simp

theorem Formed.of_mem_nodes {t : Tree} (h : Formed t) (hp : t.isPart = true) :
    ∀ u ∈ t.nodes, u.Formed ∧ u.isPart = true ∧ u.leaves <:+: t.leaves := by
  induction h with
  | @leaf token missing inside miss =>
      intro u hu
      rw [Tree.nodes] at hu
      obtain rfl := List.mem_singleton.1 hu
      exact ⟨.leaf inside miss, rfl, List.infix_rfl⟩
  | @node label span row p admits place parts formed ih =>
      intro u hu
      rw [Tree.nodes] at hu
      rcases List.mem_cons.1 hu with rfl | hu
      · exact ⟨.node p admits place parts formed, hp, List.infix_rfl⟩
      · obtain ⟨t, mem, ht⟩ := mem_nodesRow.1 hu
        obtain ⟨formedU, partU, within⟩ := ih t mem (parts t mem) u ht
        rw [leaves]
        exact ⟨formedU, partU, within.trans (infix_leavesRow mem)⟩

theorem InOrder.infix {lo hi : Nat} {xs ys : List Tree} (h : InOrder lo ys hi)
    (within : xs <:+: ys) : ∃ lo' hi', InOrder lo' xs hi' := by
  obtain ⟨before, after, rfl⟩ := within
  obtain ⟨hi', front, -⟩ := inOrder_append.1 h
  obtain ⟨lo', -, middle⟩ := inOrder_append.1 front
  exact ⟨lo', hi', middle⟩

/-- What a node shows lies in order within its span. -/
def Nests (t : Tree) : Prop :=
  t.span.start.byte ≤ t.span.stop.byte ∧
    InOrder t.span.start.byte t.visibleChildren t.span.stop.byte

theorem Extent.nests {t : Tree} (h : t.Extent) (below : ∀ c ∈ t.children, c.Ordered) {lo hi : Nat}
    (ordered : InOrder lo t.leaves hi) : t.Nests := by
  obtain ⟨bound, inside⟩ := h.inOrder_leaves ordered
  refine ⟨bound, ?_⟩
  cases t with
  | leaf token missing =>
      rw [visibleChildren]
      exact bound
  | node label span row =>
      rw [leaves] at inside
      rw [visibleChildren]
      exact visibleRow_inOrder below inside

theorem Formed.nests {t : Tree} (h : Formed t) (hp : t.isPart = true) {lo hi : Nat}
    (ordered : InOrder lo t.leaves hi) : t.Nests :=
  (h.extent hp).nests (fun c hc => (h.children c hc).ordered (h.parts c hc)) ordered

end Tree

end MettaSyntax
