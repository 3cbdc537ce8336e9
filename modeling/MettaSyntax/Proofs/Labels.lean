import MettaSyntax.Proofs.Extraction
import MettaSyntax.Tree.Printer

/-! # Fields as a cursor, the writer and a search tell them

A cursor finds the field of its node upwards through hidden parents, the writer passes fields down to
what it writes, and a search follows the entries of the productions.  What is written for a node is
what is written for the nodes that a cursor comes to below it, each behind the field that the cursor
tells; and a search for a field finds the first of these nodes that has it. -/

set_option autoImplicit false

namespace MettaSyntax

namespace Tree

/-! ## What is written for a node -/

/-- What is written for a tree that stands under a field. -/
def writeUnder (field : Option Field) (t : Tree) : String :=
  if t.isWritten then " " ++ writeField field ++ t.toSExpr else ""

theorem isWritten_of_visible {label : Label} {span : Span} {children : List Tree}
    (visible : (node label span children).isVisible = true) :
    (node label span children).isWritten = true := by
  have named : (node label span children).isNamed = true := by
    cases label <;> rfl
  rw [isWritten, visible, named]
  exact Bool.or_true _

theorem isWritten_of_hidden {t : Tree} (hidden : t.isVisible = false) (here : t.isMissing = false) :
    t.isWritten = false := by
  rw [isWritten, hidden, here]
  rfl

/-- Nothing in a row of nodes is missing and hidden. -/
def ShowsMissing (row : List Tree) : Prop :=
  ∀ u ∈ row, u.isMissing = true → u.isVisible = true

theorem ShowsMissing.subset {xs ys : List Tree} (h : ShowsMissing ys) (sub : xs ⊆ ys) :
    ShowsMissing xs := by
  intro u hu missing
  exact h u (sub hu) missing

mutual

/-- A tree is written as the visible nodes that it shows to its parent, each under its own field. -/
theorem write_eq (field : Option Field) {t : Tree} (shows : ShowsMissing t.nodes) :
    t.write field = String.join ((t.labelled field).map fun d => d.2.writeUnder d.1) := by
  match t with
  | .leaf token missing =>
      rw [write, labelled_eq]
      by_cases visible : (leaf token missing).isVisible = true
      · simp [visible, writeUnder, toSExpr, Tree.children, writeRow, String.append_assoc]
      · have here : (leaf token missing).isMissing = false := by
          by_contra lacks
          exact visible (shows _ (by simp [nodes]) (by simpa using lacks))
        have hidden : (leaf token missing).isVisible = false := by simpa using visible
        simp [hidden, isWritten_of_hidden hidden here, Tree.children]
  | .node label span children =>
      rw [nodes] at shows
      rw [write, labelled_eq]
      by_cases visible : (node label span children).isVisible = true
      · simp [visible, isWritten_of_visible visible, writeUnder, toSExpr, Tree.children, fields,
          String.append_assoc]
      · have hidden : (node label span children).isVisible = false := by simpa using visible
        have row := writeRow_eq label.fields field 0 (shows.subset (List.subset_cons_self _ _))
        simpa [hidden, isWritten_of_hidden hidden rfl, Tree.children, fields] using row

theorem writeRow_eq (entries : List FieldEntry) (field : Option Field) (index : Nat)
    {row : List Tree} (shows : ShowsMissing (nodesRow row)) :
    writeRow entries field index row =
      String.join ((labelledRow entries field index row).map fun d => d.2.writeUnder d.1) := by
  match row with
  | [] => simp [writeRow]
  | t :: row =>
      rw [nodesRow] at shows
      have here : ShowsMissing t.nodes := shows.subset (List.subset_append_left _ _)
      have later : ShowsMissing (nodesRow row) := shows.subset (List.subset_append_right _ _)
      rw [writeRow, labelledRow]
      split
      · rw [List.map_append, String.join_append, write_eq none here,
          writeRow_eq entries field index later]
      · rw [List.map_append, String.join_append, write_eq _ here,
          writeRow_eq entries field (index + 1) later]

end

end Tree

/-! ## What a cursor tells -/

namespace Cursor

theorem level_subset_below (above : List Place) (row : List Tree) (index : Nat) :
    level above row index ⊆ below above row index := by
  fun_induction level above row index with
  | case1 => exact List.nil_subset _
  | case2 above t row index place ihBelow =>
      rename_i ihLater
      rw [below_cons]
      apply List.append_subset.2 ⟨?_, List.Subset.trans ihLater (List.subset_append_right _ _)⟩
      apply List.Subset.trans _ (List.subset_append_left _ _)
      split
      · exact List.subset_append_left _ _
      · exact ihBelow

/-- What is below a node of a row is below the row. -/
theorem below_subset_below {places : List Place} {row : List Tree} {index : Nat} {c : Cursor}
    (hc : c ∈ below places row index) :
    below (c.here :: c.above) c.tree.children 0 ⊆ below places row index := by
  fun_induction below places row index with
  | case1 => cases hc
  | case2 places t row index place ihBelow ihLater =>
      rcases List.mem_append.1 hc with first | later
      · apply List.Subset.trans _ (List.subset_append_left _ _)
        apply List.Subset.trans _ (List.subset_append_right _ _)
        rcases List.mem_append.1 first with here | inner
        · split at here
          · rw [List.mem_singleton.1 here]
            exact List.Subset.refl _
          · cases here
        · exact ihBelow inner
      · exact List.Subset.trans (ihLater later) (List.subset_append_right _ _)

/-- The walk through a tree comes to all that a cursor on its way comes to. -/
theorem childCursors_subset_preorder {t : Tree} {c : Cursor} (hc : c ∈ t.preorder)
    (visible : c.tree.isVisible = true) : c.childCursors ⊆ t.preorder := by
  rw [childCursors_eq visible]
  apply List.Subset.trans (level_subset_below _ _ _)
  rw [Tree.preorder_eq] at *
  apply List.Subset.trans _ (List.subset_cons_self _ _)
  rcases List.mem_cons.1 hc with root | below
  · rw [root]
    exact List.Subset.refl _
  · exact below_subset_below below

theorem toSExpr_eq {c : Cursor} (visible : c.tree.isVisible = true)
    (shows : Tree.ShowsMissing (Tree.nodesRow c.tree.children)) :
    c.tree.toSExpr =
      "(" ++ c.tree.writeHead ++
        String.join (c.childCursors.map fun d => d.tree.writeUnder d.field?) ++ ")" := by
  have labels := map_label_childCursors visible
  rw [Tree.labelledChildren] at labels
  rw [Tree.toSExpr, Tree.writeRow_eq _ _ _ shows, ← labels, List.map_map]
  rfl

/-- The elements of a list among the nodes that a cursor comes to below it. -/
def elementCursors (c : Cursor) : List Cursor :=
  c.childCursors.filter (·.tree.isElement)

theorem map_tree_elementCursors {c : Cursor} (visible : c.tree.isVisible = true) :
    c.elementCursors.map tree = Tree.elements c.tree.children := by
  rw [Tree.elements, ← Tree.visibleChildren_eq, ← map_tree_childCursors visible, List.filter_map]
  rfl

theorem map_field?_elementCursors (c : Cursor) :
    c.elementCursors.map field? = Tree.elementFields (c.childCursors.map label) := by
  rw [Tree.elementFields, List.filter_map, List.map_map]
  rfl

end Cursor

/-- In a list the elements have fields, the first one its own and the later ones another, and nothing
else has. -/
theorem Tree.WellShaped.fields_of_list {t : Tree} {below : List Labelled} (h : t.WellShaped below)
    (list : t.symbol = .nonterminal .list) :
    (below.head?.map fun d => d.2.symbol) = some (.token .opening) ∧
      (∀ d ∈ below, d.2.isElement = false → d.1 = none) ∧
      (elementFields below = [] ∨
        ∃ n, elementFields below = some .head :: List.replicate n (some .argument)) := by
  obtain ⟨opening, inner, closing, rfl, opens, -, closes, items, fields⟩ := h.list list
  have plain : opening.isElement = false := by rw [isElement, opens]; rfl
  have plain' : closing.isElement = false := by rw [isElement, closes]; rfl
  refine ⟨congrArg some opens, ?_, ?_⟩
  · intro d hd other
    rcases List.mem_cons.1 hd with rfl | hd
    · rfl
    rcases List.mem_append.1 hd with hd | hd
    · rcases items d hd with element | ⟨none, -⟩
      · rw [element] at other
        cases other
      · exact none
    · rw [List.mem_singleton.1 hd]
  · have same : elementFields ((none, opening) :: (inner ++ [(none, closing)])) =
        elementFields inner := by
      simp [elementFields, plain, plain']
    rw [same]
    exact fields

namespace Cursor

section Lists

variable {c : Cursor}
  (plain : ∀ d ∈ c.childCursors, d.tree.isElement = false → d.field? = none)
  (fields : c.elementCursors.map field? = [] ∨
    ∃ n, c.elementCursors.map field? = some .head :: List.replicate n (some .argument))
include fields

theorem field?_of_getElem? (i : Nat) {d : Cursor} (hd : c.elementCursors[i]? = some d) :
    d.field? = some (if i = 0 then .head else .argument) := by
  have field : (c.elementCursors.map field?)[i]? = some d.field? := by
    rw [List.getElem?_map, hd, Option.map_some]
  rcases fields with none | ⟨n, some⟩
  · rw [none] at field
    cases field
  · rw [some] at field
    cases i with
    | zero => exact (Option.some.inj field).symm
    | succ i =>
        rw [List.getElem?_cons_succ] at field
        exact List.eq_of_mem_replicate (List.mem_of_getElem? field)

include plain

/-- The first node with a field is the first element, or the second. -/
theorem find?_field (f : Field) :
    (c.childCursors.find? fun d => d.field? = some f) =
      c.elementCursors[match f with | .head => 0 | .argument => 1]? := by
  -- a node with a field is an element
  have among : c.childCursors.filter (fun d => d.field? = some f) =
      c.elementCursors.filter (fun d => d.field? = some f) := by
    rw [elementCursors, List.filter_filter]
    apply List.filter_congr
    intro d hd
    cases element : d.tree.isElement with
    | true => simp
    | false => simp [plain d hd element]
  rw [← List.head?_filter, among]
  cases elements : c.elementCursors with
  | nil => rfl
  | cons first later =>
      have head : first.field? = some .head :=
        field?_of_getElem? fields 0 (by rw [elements, List.getElem?_cons_zero])
      have argument : ∀ d ∈ later, d.field? = some .argument := by
        intro d hd
        obtain ⟨i, found⟩ := List.getElem?_of_mem hd
        exact field?_of_getElem? fields (i + 1) (by rw [elements, List.getElem?_cons_succ, found])
      cases f with
      | head => rw [List.filter_cons_of_pos (by simp [head]), List.head?_cons, List.getElem?_cons_zero]
      | argument =>
          have all : later.filter (fun d => d.field? = some .argument) = later :=
            List.filter_eq_self.2 fun d hd => decide_eq_true (argument d hd)
          rw [List.filter_cons_of_neg (by simp [head]), all, List.getElem?_cons_succ,
            List.head?_eq_getElem?]

end Lists

end Cursor

/-- For every text, each visible node of its tree is written as what is written for the nodes that a
cursor comes to below it, each under the field that the cursor tells.  In a list, what comes first is
the opening parenthesis; the first element has the field `head` and each later one the field
`argument`, and nothing else has a field.  A search for a field finds the first node that a cursor
tells the field of: the head is the first element, and the argument the second, if there is one. -/
theorem fields_agree (text : List Char) :
    (∀ c ∈ (parse text).preorder,
      c.childCursors ⊆ (parse text).preorder ∧
        c.tree.toSExpr =
          "(" ++ c.tree.writeHead ++
            String.join (c.childCursors.map fun d => d.tree.writeUnder d.field?) ++ ")") ∧
      ∀ c ∈ (parse text).preorder, c.tree.symbol = .nonterminal .list →
        (c.childCursors.head?.map fun d => d.tree.symbol) = some (.token .opening) ∧
          (∀ i d, c.elementCursors[i]? = some d →
            d.field? = some (if i = 0 then .head else .argument)) ∧
          (∀ d ∈ c.childCursors, d.tree.isElement = false → d.field? = none) ∧
          (∀ f, c.tree.child? f =
            (c.childCursors.find? fun d => d.field? = some f).map Cursor.tree) ∧
          c.tree.child? .head = c.elementCursors[0]?.map Cursor.tree ∧
          c.tree.child? .argument = c.elementCursors[1]?.map Cursor.tree := by
  obtain ⟨n, whole⟩ := parse_repaired text
  constructor
  · intro c hc
    have visible := (whole.wellShaped_of_mem_preorder rfl hc).1
    have all : Tree.ShowsMissing (parse text).nodes := by
      intro u hu missing
      exact whole.isVisible_of_isMissing hu missing
    have inner : c.tree.nodes ⊆ (parse text).nodes :=
      Tree.nodes_subset_nodes (Tree.mem_nodes_of_mem_preorder hc)
    rw [Tree.nodes_eq c.tree] at inner
    have shows := all.subset (List.Subset.trans (List.subset_cons_self _ _) inner)
    exact ⟨Cursor.childCursors_subset_preorder hc visible, Cursor.toSExpr_eq visible shows⟩
  · intro c hc list
    obtain ⟨visible, shaped⟩ := whole.wellShaped_of_mem_preorder rfl hc
    obtain ⟨opens, plain, fields⟩ := shaped.fields_of_list list
    rw [← Cursor.map_field?_elementCursors] at fields
    have plain : ∀ d ∈ c.childCursors, d.tree.isElement = false → d.field? = none := by
      intro d hd other
      exact plain d.label (List.mem_map_of_mem hd) other
    have mem := list_mem_nodesRow hc (decide_eq_true list)
    obtain ⟨head, argument⟩ := (formed_of_mem mem visible).1.child?_of_list list
    rw [← Cursor.map_tree_elementCursors visible, List.getElem?_map] at head argument
    refine ⟨?_, fun i d hd => Cursor.field?_of_getElem? fields i hd, plain, ?_, head, argument⟩
    · rw [← opens, List.head?_map, Option.map_map]
      rfl
    · intro f
      rw [Cursor.find?_field plain fields]
      cases f with
      | head => exact head
      | argument => exact argument

end MettaSyntax
