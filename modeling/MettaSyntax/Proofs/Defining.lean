import MettaSyntax.Outline.Definition
import MettaSyntax.Proofs.Locating

/-! # What a definition is read from

The definition that a list makes is read from nodes of that list and from the text in their places,
and its context is the list or one below it.  So it is the same in every tree that has the list, and
in every text that goes on after the list. -/

set_option autoImplicit false

namespace MettaSyntax

/-! ## Cutting a text that goes on -/

theorem dropBytes?_extend {n : Nat} {cs : List Char} (h : n ≤ byteLength cs) (more : List Char) :
    dropBytes? n (cs ++ more) = (dropBytes? n cs).map (· ++ more) := by
  fun_induction dropBytes? n cs with
  | case1 cs => rw [dropBytes?]; rfl
  | case2 n => simp [byteLength] at h
  | case3 n c cs fits ih =>
      rw [byteLength] at h
      rw [List.cons_append, dropBytes?, if_pos fits, ih (by omega)]
  | case4 n c cs misfit =>
      rw [List.cons_append, dropBytes?, if_neg misfit]
      rfl

theorem takeBytes?_extend {n : Nat} {cs : List Char} (h : n ≤ byteLength cs) (more : List Char) :
    takeBytes? n (cs ++ more) = takeBytes? n cs := by
  fun_induction takeBytes? n cs with
  | case1 cs => rw [takeBytes?]
  | case2 n => simp [byteLength] at h
  | case3 n c cs fits ih =>
      rw [byteLength] at h
      rw [List.cons_append, takeBytes?, if_pos fits, ih (by omega)]
  | case4 n c cs misfit => rw [List.cons_append, takeBytes?, if_neg misfit]

theorem byteLength_of_dropBytes? {n : Nat} {cs rest : List Char} (h : dropBytes? n cs = some rest) :
    byteLength cs = n + byteLength rest := by
  fun_induction dropBytes? n cs with
  | case1 cs =>
      rw [Option.some.inj h, Nat.zero_add]
  | case2 n => cases h
  | case3 n c cs fits ih =>
      have inner := ih h
      rw [byteLength]
      omega
  | case4 n c cs misfit => cases h

/-- A part of a text is the same when more text follows. -/
theorem slice?_extend {cs : List Char} {start stop : Nat} (h : stop ≤ byteLength cs)
    (more : List Char) : slice? (cs ++ more) start stop = slice? cs start stop := by
  unfold slice?
  split
  · next order =>
      rw [dropBytes?_extend (Nat.le_trans order h)]
      cases dropped : dropBytes? start cs with
      | none => rfl
      | some rest =>
          have total := byteLength_of_dropBytes? dropped
          exact takeBytes?_extend (by omega) more
  · rfl

namespace Tree

/-! ## Nodes of a list -/

theorem mem_nodesRow_of_mem_visibleChildren {t u : Tree} (h : u ∈ t.visibleChildren) :
    u ∈ nodesRow t.children := by
  rw [visibleChildren_eq] at h
  exact visibleRow_subset_nodesRow _ h

mutual

theorem mem_nodesRow_of_child? {f : Field} {t u : Tree} (h : t.child? f = some u) :
    u ∈ nodesRow t.children := by
  match t with
  | .leaf token missing => cases h
  | .node label span children =>
      rw [child?] at h
      exact mem_nodesRow_of_childAt? h

theorem mem_nodesRow_of_childAt? {f : Field} {entries : List FieldEntry} {index : Nat}
    {row : List Tree} {u : Tree} (h : childAt? f entries index row = some u) : u ∈ nodesRow row := by
  match entries, row with
  | _, [] => simp [childAt?] at h
  | [], _ :: _ => simp [childAt?] at h
  | e :: entries, t :: row =>
      rw [nodesRow]
      rw [childAt?] at h
      split at h
      · exact List.mem_append_right _ (mem_nodesRow_of_childAt? h)
      · split at h
        · exact List.mem_append_right _ (mem_nodesRow_of_childAt? h)
        · split at h
          · rcases Option.or_eq_some_iff.1 h with found | ⟨-, found⟩
            · refine List.mem_append_left _ ?_
              rw [nodes_eq]
              exact List.mem_cons_of_mem _ (mem_nodesRow_of_child? found)
            · exact List.mem_append_right _ (mem_nodesRow_of_childAt? found)
          · split at h
            · obtain rfl := Option.some.inj h
              exact List.mem_append_left _ (mem_nodes_self t)
            · rcases Option.or_eq_some_iff.1 h with found | ⟨-, found⟩
              · refine List.mem_append_left _ ?_
                rw [nodes_eq]
                exact List.mem_cons_of_mem _
                  (mem_nodesRow_of_mem_visibleChildren (List.mem_of_mem_head? found))
              · exact List.mem_append_right _ (mem_nodesRow_of_childAt? found)

end

theorem mem_nodesRow_of_symbolWithin? {t u : Tree} (h : t.symbolWithin? = some u) :
    u ∈ nodesRow t.children ∧ u.symbol = .token (.atom .symbol) := by
  unfold symbolWithin? at h
  split at h
  · obtain ⟨found, symbol⟩ := Option.filter_eq_some_iff.1 h
    exact ⟨mem_nodesRow_of_mem_visibleChildren (List.mem_of_find?_eq_some found),
      by simpa [isAtomKind] using symbol⟩
  · cases h

theorem nodesRow_subset_of_mem {t u : Tree} (h : u ∈ nodesRow t.children) :
    nodesRow u.children ⊆ nodesRow t.children := by
  have below := nodes_subset_nodesRow h
  rw [nodes_eq] at below
  exact List.Subset.trans (List.subset_cons_self _ _) below

/-- The symbol that a child in a field consists of is a node of the list. -/
theorem mem_nodesRow_of_child?_bind {f : Field} {t u : Tree}
    (h : (t.child? f).bind symbolWithin? = some u) :
    u ∈ nodesRow t.children ∧ u.symbol = .token (.atom .symbol) := by
  obtain ⟨child, found, within⟩ := Option.bind_eq_some_iff.1 h
  obtain ⟨mem, symbol⟩ := mem_nodesRow_of_symbolWithin? within
  exact ⟨nodesRow_subset_of_mem (mem_nodesRow_of_child? found) mem, symbol⟩

theorem mem_nodesRow_of_name? {argument u : Tree} (h : Definition.name? argument = some u) :
    u ∈ nodesRow argument.children ∧ u.symbol = .token (.atom .symbol) := by
  unfold Definition.name? at h
  split at h
  · exact mem_nodesRow_of_child?_bind h
  · exact mem_nodesRow_of_symbolWithin? h

theorem mem_of_lowestListAround {s : Span} {best : Option Tree} (t : Tree) {u : Tree}
    (h : lowestListAround s best t = some u) : best = some u ∨ u ∈ nodesRow t.children := by
  rw [lowestListAround] at h
  split at h
  · next c found =>
      have hc := mem_of_childAround? found
      have row : c ∈ nodesRow t.children := mem_nodesRow_of_mem hc
      rcases mem_of_lowestListAround c h with here | below
      · split at here
        · exact .inr (Option.some.inj here ▸ row)
        · exact .inl here
      · exact .inr (nodesRow_subset_of_mem row below)
  · exact .inl h
  termination_by t.size
  decreasing_by exact size_lt_of_mem hc

end Tree

namespace Definition

open MettaSyntax.Tree

/-- The lists of a tree, in the order of the text. -/
def lists (root : Tree) : List Tree :=
  (nodesRow root.children).filter (isNonterminal .list)

theorem all_eq (text : List Char) {root : Tree} (h : root.isNonterminal .list = false) :
    all text root = (lists root).filterMap (ofList? text root) := by
  have flat : all text root = (root.preorder.map Cursor.tree).filterMap fun t =>
      if t.isNonterminal .list then ofList? text root t else none := by
    rw [all, List.filterMap_map]
    rfl
  rw [flat, map_tree_preorder, List.filterMap_cons_none (by simp [h]), lists, List.filterMap_filter,
    List.filterMap_filter]
  congr 1
  funext t
  by_cases list : t.isNonterminal .list = true
  · simp [list, isVisible_of_isList list]
  · simp [list]

/-- A definition depends on the nodes of its list and on the text in their places. -/
theorem ofList?_eq {text text' : List Char} {root root' list : Tree}
    (texts : ∀ u ∈ list.nodes, u.text? text = u.text? text')
    (around : ∀ name ∈ nodesRow list.children, name.symbol = .token (.atom .symbol) →
      root.listAround? name.span = lowestListAround name.span (some list) list ∧
        root'.listAround? name.span = lowestListAround name.span (some list) list) :
    ofList? text root list = ofList? text' root' list := by
  have below : ∀ u ∈ nodesRow list.children, u.text? text = u.text? text' := by
    intro u hu
    apply texts
    rw [nodes_eq]
    exact List.mem_cons_of_mem _ hu
  unfold ofList?
  simp only [Option.bind_eq_bind]
  refine Option.bind_congr fun operator found => ?_
  rw [below operator (mem_nodesRow_of_child?_bind found).1]
  refine Option.bind_congr fun cs _ => Option.bind_congr fun kind _ => ?_
  refine Option.bind_congr fun argument hargument => Option.bind_congr fun name named => ?_
  obtain ⟨inner, symbol⟩ := mem_nodesRow_of_name? named
  have mem := nodesRow_subset_of_mem (mem_nodesRow_of_child? hargument) inner
  obtain ⟨here, there⟩ := around name mem symbol
  have context : ((lowestListAround name.span (some list) list).getD name).text? text =
      ((lowestListAround name.span (some list) list).getD name).text? text' := by
    cases way : lowestListAround name.span (some list) list with
    | none => exact below name mem
    | some u =>
        rcases mem_of_lowestListAround list way with self | deeper
        · exact Option.some.inj self ▸ texts list (mem_nodes_self list)
        · exact below u deeper
  rw [here, there, below name mem, context]

end Definition

end MettaSyntax
