import MettaSyntax.Proofs.Elements
import MettaSyntax.Proofs.Mended

/-! # The items of a tree

`Tree.items` reads the items of a text off its tree.  In a tree without errors, or with such as leave
the rest as it would be, they have the tokens that the tree keeps, the elements of a list are its items
without comments, and the list nodes are the lists among the items, at any depth, in the order in which
they open. -/

set_option autoImplicit false

namespace MettaSyntax

namespace Item

/-- The items of a row that are not comments. -/
def elements (row : List Item) : List Item :=
  row.filter (!·.isComment)

mutual

/-- The lists in an item, at any depth, each before those within it. -/
def lists : Item → List Item
  | .list opening items closing => .list opening items closing :: listsRow items
  | _ => []

def listsRow : List Item → List Item
  | [] => []
  | i :: row => lists i ++ listsRow row

end

/-- The opening parenthesis of a list. -/
def opening? : Item → Option Span
  | .list opening _ _ => some opening
  | _ => none

theorem elements_append (xs ys : List Item) : elements (xs ++ ys) = elements xs ++ elements ys :=
  List.filter_append xs ys

theorem listsRow_append (xs ys : List Item) : listsRow (xs ++ ys) = listsRow xs ++ listsRow ys := by
  induction xs with
  | nil => rfl
  | cons i xs ih => rw [List.cons_append, listsRow, listsRow, ih, List.append_assoc]

/-- A forest is told by its tokens. -/
theorem tokensRow_injective {xs ys : List Item} (same : tokensRow xs = tokensRow ys) : xs = ys := by
  have stops : Stops [] := by simp [Stops]
  exact (tokensRow_unique xs ys stops stops (by simpa using same)).1

mutual

theorem openings_lists (i : Item) :
    i.lists.filterMap opening? = (i.tokens.filter (·.kind = .opening)).map Token.span := by
  match i with
  | .atom kind span => simp [lists, tokens]
  | .comment span => simp [lists, tokens]
  | .list opening items closing =>
      have first : opening? (.list opening items closing) = some opening := rfl
      rw [lists, tokens, List.filterMap_cons_some first, openings_listsRow items,
        List.filter_cons_of_pos (by simp), List.filter_append]
      simp

/-- There is one list for each opening parenthesis, in order. -/
theorem openings_listsRow (row : List Item) :
    (listsRow row).filterMap opening? =
      ((tokensRow row).filter (·.kind = .opening)).map Token.span := by
  match row with
  | [] => rfl
  | i :: row =>
      rw [listsRow, tokensRow_cons, List.filterMap_append, openings_lists i, openings_listsRow row,
        List.filter_append, List.map_append]

end

end Item

namespace Tree

/-- The item that a node is, with the given items below it. -/
def item? (label : Label) (children : List Tree) (below : List Item) : Option Item :=
  match label.symbol, children.head?, children.getLast? with
  | .nonterminal .atom, some (.leaf ⟨.atom kind, span⟩ _), _ => some (.atom kind span)
  | .nonterminal .list, some first, some last => some (.list first.span below last.span)
  | _, _, _ => none

mutual

/-- The items that a tree shows to its parent: itself, or else those below it. -/
def items : Tree → List Item
  | .leaf token _ => if token.kind = .comment then [.comment token.span] else []
  | .node label _ children =>
      (item? label children (itemsRow children)).elim (itemsRow children) ([·])

def itemsRow : List Tree → List Item
  | [] => []
  | t :: row => items t ++ itemsRow row

end

theorem itemsRow_nil : itemsRow [] = [] := by
  rw [itemsRow]

theorem itemsRow_cons (t : Tree) (row : List Tree) : itemsRow (t :: row) = t.items ++ itemsRow row := by
  rw [itemsRow]

theorem itemsRow_append (xs ys : List Tree) : itemsRow (xs ++ ys) = itemsRow xs ++ itemsRow ys := by
  induction xs with
  | nil => rw [itemsRow_nil, List.nil_append, List.nil_append]
  | cons t xs ih => rw [List.cons_append, itemsRow_cons, itemsRow_cons, ih, List.append_assoc]

/-- A node that is no element shows the items below it. -/
theorem items_of_not_element {label : Label} (h : Production.isElement label.symbol = false)
    (span : Span) (children : List Tree) :
    (node label span children).items = itemsRow children := by
  have none : item? label children (itemsRow children) = none := by
    unfold item?
    split
    · next atom _ => rw [atom] at h; cases h
    · next list _ _ => rw [list] at h; cases h
    · rfl
  rw [items, none, Option.elim_none]

mutual

theorem items_eq (t : Tree) : t.items = t.seen.flatMap items := by
  match t with
  | .leaf token missing =>
      rw [seen, visibleChildren]
      split
      · simp
      · next hidden =>
          have other : token.kind ≠ .comment := by
            intro comment
            apply hidden
            rw [isVisible, Tree.symbol, comment]
            rfl
          rw [items, if_neg other, List.flatMap_nil]
  | .node label span children =>
      rw [seen]
      split
      · simp
      · next hidden =>
          have plain : Production.isElement label.symbol = false := by
            rw [← Bool.not_eq_true]
            exact fun element => hidden (isVisible_of_isElement element)
          rw [items_of_not_element plain, visibleChildren, itemsRow_eq children]

/-- The items of a row are those of the visible nodes that it shows. -/
theorem itemsRow_eq (row : List Tree) : itemsRow row = (visibleRow row).flatMap items := by
  match row with
  | [] => rw [itemsRow, visibleRow, List.flatMap_nil]
  | t :: row => rw [itemsRow, visibleRow_cons, List.flatMap_append, items_eq t, itemsRow_eq row]

end

/-! ## Trees that read on -/

/-- A tree that is no token, or else a comment. -/
def IsSolid (t : Tree) : Prop :=
  ∀ k, t.symbol = .token k → k = .comment

/-- Where no token counts as a child, there are only comments besides larger trees. -/
theorem isSolid_of_counted {row : List Tree} (formed : ∀ t ∈ row, t.Formed)
    (h : ∀ x ∈ counted row, ∀ k, x ≠ .token k) : ∀ t ∈ row, t.IsSolid := by
  intro t ht k symbol
  by_cases extra : t.isExtra = true
  · obtain ⟨-, -, aside⟩ := (formed t ht).aside extra
    simpa [isAside, isError, symbol] using aside
  · have mem : t.symbol ∈ counted row :=
      List.mem_map_of_mem (List.mem_filter.2 ⟨ht, by simpa using extra⟩)
    exact absurd symbol (h _ mem k)

theorem ne_token_of_isElement {e : Symbol} (h : Production.isElement e = true) :
    ∀ k, e ≠ .token k := by
  rintro k rfl
  cases h

/-- Only elements have tokens among the children that count. -/
theorem spells_solid {p : Production} {xs : List Symbol} (h : p.spells xs = true)
    (other : Production.isElement (.nonterminal p.result) = false) :
    ∀ x ∈ xs, ∀ k, x ≠ .token k := by
  unfold Production.spells at h
  split at h <;> first
    | exact absurd other.symm Bool.false_ne_true
    | cases h; done
    | simp; done
    | simpa using ne_token_of_isElement h

theorem inside_solid {p : Production} {xs : List Symbol} (h : inside p xs) :
    ∀ x ∈ xs, ∀ k, x ≠ .token k := by
  unfold inside at h
  split at h
  · simp [h]
  · obtain ⟨e, he, rfl⟩ := h
    simpa using ne_token_of_isElement he
  · obtain ⟨e, he, rfl⟩ := h
    simpa using ne_token_of_isElement he
  · exact absurd h id

/-- What an element is: an atom that is one token, or a list within its parentheses, the last of which
may be missing. -/
inductive ReadsAs (t : Tree) : Item → Prop
  | atom {kind : AtomKind} {span : Span} (symbol : t.symbol = .nonterminal .atom)
      (children : t.children = [ofToken ⟨.atom kind, span⟩]) : ReadsAs t (.atom kind span)
  | list {o c : Span} {mid : List Tree} {missing : Bool} (symbol : t.symbol = .nonterminal .list)
      (children : t.children = ofToken ⟨.opening, o⟩ :: (mid ++ [leaf ⟨.closing, c⟩ missing]))
      (span : t.span = ⟨o.start, c.stop⟩) (between : ∀ u ∈ mid, u.IsSolid) :
      ReadsAs t (.list o (itemsRow t.children) c)

theorem ReadsAs.isComment {t : Tree} {i : Item} (h : t.ReadsAs i) : i.isComment = false := by
  cases h <;> rfl

theorem ReadsAs.items {t : Tree} {i : Item} (h : t.ReadsAs i) : t.items = [i] := by
  cases t with
  | leaf token missing =>
      cases h with
      | atom symbol children => exact absurd symbol (Completion.symbol_leaf_ne token missing)
      | list symbol children span between => exact absurd symbol (Completion.symbol_leaf_ne token missing)
  | node label span row =>
      cases h with
      | atom symbol children =>
          have below : row = _ := children
          have atom : label.symbol = .nonterminal .atom := symbol
          rw [Tree.items, item?, atom, below]
          rfl
      | @list o c mid missing symbol children place between =>
          have below : row = _ := children
          have list : label.symbol = .nonterminal .list := symbol
          have last : row.getLast? = some (leaf ⟨.closing, c⟩ missing) := by
            rw [below, ← List.cons_append, List.getLast?_concat]
          have head : row.head? = some (ofToken ⟨.opening, o⟩) := by rw [below]; rfl
          rw [Tree.items, item?, list, head, last]
          rfl

/-- An element is a production. -/
theorem exists_production {t : Tree} (element : t.isElement = true) :
    ∃ p span row, t = Tree.node (.production p) span row := by
  cases t with
  | leaf token missing =>
      rw [Tree.isElement, Tree.symbol] at element
      cases hk : token.kind <;> rw [hk] at element <;> cases element
  | node label span row =>
      cases label with
      | production p => exact ⟨p, span, row, rfl⟩
      | error whole => cases element
      | skipped => cases element

/-- Every element is an item. -/
theorem Formed.readsAs {t : Tree} (h : t.Formed) (element : t.isElement = true) :
    ∃ i, t.ReadsAs i := by
  obtain ⟨q, span, row, rfl⟩ := exists_production element
  cases h with
  | node p admits place parts formed =>
      obtain ⟨spelt, tight⟩ := admits
      rcases isElement_result element with list | rfl
      · obtain ⟨xs, split, within⟩ := inside_of_spells list spelt
        obtain ⟨t, mid, u, rfl, opens, closes, rfl⟩ := tight.ends split
        obtain ⟨o, rfl⟩ := (formed t (by simp)).eq_ofToken opens (by simp)
        obtain ⟨c, missing, rfl⟩ := exists_leaf_of_symbol closes
        have between : ∀ v ∈ mid, v.IsSolid :=
          isSolid_of_counted (fun v hv => formed v (by simp [hv])) (inside_solid within)
        refine ⟨_, .list (o := o) (c := c) (congrArg Symbol.nonterminal list) rfl ?_ between⟩
        rw [Tree.span, place]
        simp [hull, List.getLast?_cons, Tree.ofToken, Tree.span]
      · obtain ⟨kind, one⟩ := spells_atom spelt
        obtain ⟨leaf, rfl, symbol⟩ := tight.singleton one
        obtain ⟨s, rfl⟩ := (formed leaf List.mem_cons_self).eq_ofToken symbol (by simp)
        exact ⟨_, .atom rfl rfl⟩

/-- Stray parentheses are no items. -/
theorem Stray.itemsRow {row : List Tree} (h : Stray row) : itemsRow row = [] := by
  rw [itemsRow_eq, List.flatMap_eq_nil_iff]
  intro u hu
  have visible := isVisible_of_mem_visibleRow hu
  rcases h u (visibleRow_subset_nodesRow _ hu) with skipped | closing
  · rw [isVisible, skipped] at visible
    cases visible
  · obtain ⟨span, missing, rfl⟩ := exists_leaf_of_symbol closing
    rw [Tree.items, if_neg (by simp)]

theorem Stray.items {label : Label} (broken : label.isBroken = true) {row : List Tree} (h : Stray row)
    (span : Span) : (node label span row).items = [] := by
  have plain : Production.isElement label.symbol = false := by
    cases label with
    | production p => cases broken
    | error whole => rfl
    | skipped => rfl
  rw [items_of_not_element plain, h.itemsRow]

/-- What is shown besides elements are comments and single tokens. -/
theorem elements_items {t : Tree} (h : t.Formed) (mended : t.Mended) (part : t.isPart = true)
    (visible : t.isVisible = true) :
    Item.elements t.items = if t.isElement then t.items else [] := by
  split
  · next element =>
      obtain ⟨i, reads⟩ := h.readsAs element
      rw [reads.items, Item.elements, List.filter_cons_of_pos (by simp [reads.isComment]),
        List.filter_nil]
  · next other =>
      cases mended with
      | @leaf token missing lexable =>
          rw [items]
          split <;> rfl
      | @stray label span row broken stray =>
          rw [stray.items broken]
          rfl
      | @node q span row mended =>
          apply absurd _ other
          cases q <;> first
            | rfl
            | exact absurd part Bool.false_ne_true
            | exact absurd visible Bool.false_ne_true

/-- The elements that a row shows are its items without comments. -/
theorem elements_itemsRow {row : List Tree}
    (known : ∀ t ∈ visibleRow row, t.Formed ∧ t.Mended ∧ t.isPart = true) :
    Item.elements (itemsRow row) = (elements row).flatMap items := by
  have own : ∀ t ∈ visibleRow row,
      Item.elements t.items = if t.isElement then t.items else [] := fun t ht =>
    elements_items (known t ht).1 (known t ht).2.1 (known t ht).2.2 (isVisible_of_mem_visibleRow ht)
  rw [itemsRow_eq, elements]
  clear known
  generalize visibleRow row = shown at own ⊢
  induction shown with
  | nil => rfl
  | cons t shown ih =>
      rw [List.flatMap_cons, Item.elements_append, own t List.mem_cons_self,
        ih fun u hu => own u (List.mem_cons_of_mem _ hu)]
      split
      · next element => rw [List.filter_cons_of_pos element, List.flatMap_cons]
      · next other => rw [List.filter_cons_of_neg other, List.nil_append]

/-- The elements of a row and their items correspond one to one. -/
theorem getElem?_flatMap_items {row : List Tree} (known : ∀ e ∈ row, ∃ i, e.ReadsAs i) (k : Nat) :
    row[k]? = none ∧ (row.flatMap items)[k]? = none ∨
      ∃ e ∈ row, ∃ i, e.ReadsAs i ∧ row[k]? = some e ∧ (row.flatMap items)[k]? = some i := by
  induction row generalizing k with
  | nil => exact .inl ⟨rfl, rfl⟩
  | cons e row ih =>
      obtain ⟨i, reads⟩ := known e List.mem_cons_self
      have rest := ih fun u hu => known u (List.mem_cons_of_mem _ hu)
      rw [List.flatMap_cons, reads.items]
      cases k with
      | zero => exact .inr ⟨e, List.mem_cons_self, i, reads, rfl, rfl⟩
      | succ k =>
          rcases rest k with none | ⟨u, hu, j, readsU, found, found'⟩
          · exact .inl none
          · exact .inr ⟨u, List.mem_cons_of_mem _ hu, j, readsU, found, found'⟩

/-! ## Lists and tokens -/

theorem lists_itemsRow_of {row : List Tree} (known : ∀ t ∈ row,
    (t.nodes.filter (isNonterminal .list)).flatMap items = Item.listsRow t.items) :
    ((nodesRow row).filter (isNonterminal .list)).flatMap items = Item.listsRow (itemsRow row) := by
  induction row with
  | nil => rw [nodesRow, itemsRow]; rfl
  | cons t row ih =>
      rw [nodesRow, itemsRow_cons, List.filter_append, List.flatMap_append, Item.listsRow_append,
        known t List.mem_cons_self, ih fun u hu => known u (List.mem_cons_of_mem _ hu)]

theorem isNonterminal_leaf (n : Nonterminal) (token : Token) (missing : Bool) :
    (leaf token missing).isNonterminal n = false := by
  simpa [isNonterminal] using Completion.symbol_leaf_ne token missing

/-- The list nodes of a tree are the lists among its items. -/
theorem Formed.lists_items {t : Tree} (h : t.Formed) (mended : t.Mended) :
    (t.nodes.filter (isNonterminal .list)).flatMap Tree.items = Item.listsRow t.items := by
  induction mended with
  | @leaf token missing lexable =>
      rw [nodes, List.filter_cons_of_neg (by simp [isNonterminal_leaf]), Tree.items]
      split <;> rfl
  | @stray label span row broken stray =>
      have none : (Tree.node label span row).nodes.filter (isNonterminal .list) = [] := by
        rw [List.filter_eq_nil_iff]
        intro u hu
        rw [nodes] at hu
        rcases List.mem_cons.1 hu with rfl | below
        · cases label with
          | production p => cases broken
          | error whole => simp [isNonterminal, Tree.symbol, Label.symbol]
          | skipped => simp [isNonterminal, Tree.symbol, Label.symbol]
        · rcases stray u below with skipped | closing
          · simp [isNonterminal, skipped]
          · simp [isNonterminal, closing]
      rw [none, stray.items broken]
      rfl
  | @node q span row mended ih =>
      have below := lists_itemsRow_of fun u hu => ih u hu (h.children u hu)
      rw [nodes]
      by_cases element : (Tree.node (.production q) span row).isElement = true
      · obtain ⟨i, reads⟩ := h.readsAs element
        have own := reads.items
        cases reads with
        | @atom kind place symbol children =>
            have single : row = [Tree.ofToken ⟨.atom kind, place⟩] := children
            have none : (nodesRow row).filter (isNonterminal .list) = [] := by
              simp [single, nodesRow, nodes, Tree.ofToken, isNonterminal_leaf]
            rw [own, List.filter_cons_of_neg (by simp [isNonterminal, symbol]), none]
            rfl
        | list symbol children place between =>
            rw [List.filter_cons_of_pos (by simp [isNonterminal, symbol]), List.flatMap_cons, below,
              own, Item.listsRow, Item.lists]
            simp [Item.listsRow, Tree.children]
      · have plain : Production.isElement (Label.production q).symbol = false :=
          Bool.eq_false_iff.2 element
        have other : (Tree.node (.production q) span row).isNonterminal .list = false := by
          rw [isNonterminal, decide_eq_false_iff_not]
          intro list
          rw [Tree.isElement, list] at element
          exact element rfl
        rw [List.filter_cons_of_neg (by simp [other]), below, items_of_not_element plain]

theorem tokens_itemsRow_of {row : List Tree}
    (known : ∀ t ∈ row, t.kept = Item.tokensRow t.items) :
    keptRow row = Item.tokensRow (itemsRow row) := by
  induction row with
  | nil => rw [itemsRow]; rfl
  | cons t row ih =>
      rw [keptRow_cons, itemsRow_cons, Item.tokensRow_append, known t List.mem_cons_self,
        ih fun u hu => known u (List.mem_cons_of_mem _ hu)]

/-- A tree that is no token, or a comment, keeps the tokens of its items. -/
theorem Formed.tokens_items {t : Tree} (h : t.Formed) (mended : t.Mended) (solid : t.IsSolid) :
    t.kept = Item.tokensRow t.items := by
  induction mended with
  | @leaf token missing lexable =>
      obtain ⟨kind, span⟩ := token
      have symbol : (Tree.leaf ⟨kind, span⟩ missing).symbol = .token kind := by
        cases kind <;> first | rfl | exact absurd rfl lexable
      obtain rfl := solid kind symbol
      rw [Tree.kept, Tree.items, if_pos rfl]
      rfl
  | @stray label span row broken stray =>
      rw [kept_broken broken, stray.items broken]
      rfl
  | @node q span row mended ih =>
      have known : ∀ part : List Tree, part ⊆ row → (∀ u ∈ part, u.IsSolid) →
          keptRow part = Item.tokensRow (itemsRow part) := fun part sub solid =>
        tokens_itemsRow_of fun u hu => ih u (sub hu) (h.children u (sub hu)) (solid u hu)
      rw [kept_production]
      by_cases element : (Tree.node (.production q) span row).isElement = true
      · obtain ⟨i, reads⟩ := h.readsAs element
        have own := reads.items
        cases reads with
        | @atom kind place symbol children =>
            have single : row = [Tree.ofToken ⟨.atom kind, place⟩] := children
            rw [own, single]
            simp [Item.tokens]
        | @list o c mid missing symbol children place between =>
            have split : row = Tree.ofToken ⟨.opening, o⟩ :: (mid ++ [.leaf ⟨.closing, c⟩ missing]) :=
              children
            have inner := known mid (by rw [split]; simp) between
            have bare : itemsRow row = itemsRow mid := by
              rw [split, itemsRow_cons, itemsRow_append, itemsRow_cons, itemsRow_nil]
              simp [Tree.ofToken, Tree.items]
            rw [own, Tree.children, bare, split]
            simp [Item.tokens, Tree.kept, inner]
      · have plain : Production.isElement (Label.production q).symbol = false :=
          Bool.eq_false_iff.2 element
        rw [items_of_not_element plain]
        apply known row (List.Subset.refl row)
        cases h with
        | node p admits place parts formed =>
            exact isSolid_of_counted formed (spells_solid admits.1 plain)

end Tree

end MettaSyntax
