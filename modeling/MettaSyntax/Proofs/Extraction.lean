import MettaSyntax.Proofs.Items
import MettaSyntax.Proofs.Pointing

/-! # The definitions of a text without errors

What a text without errors defines can be told from its tokens alone: they are those of exactly one
forest of items, and the definitions are those of the lists in the forest.  A list whose first element
is the symbol `=` or `:` defines its second element, if that is a symbol, or else the first element of
its second element, if both are there and the latter is a symbol.  Comments are not elements.

The same holds of a tree that reads on after its errors, with the tokens that it keeps. -/

set_option autoImplicit false

namespace MettaSyntax

/-! ## Texts of spans -/

/-- The characters between two byte offsets of a text, the first character of which is at the third. -/
def charsBetween (start stop : Nat) : Nat → List Char → List Char
  | _, [] => []
  | offset, c :: cs =>
      let rest := charsBetween start stop (offset + c.utf8Size) cs
      if start ≤ offset ∧ offset < stop then c :: rest else rest

def Span.cut (text : List Char) (s : Span) : List Char :=
  charsBetween s.start.byte s.stop.byte 0 text

section Cuts

variable {start stop offset : Nat} {cs : List Char}

theorem charsBetween_append (xs ys : List Char) :
    charsBetween start stop offset (xs ++ ys) =
      charsBetween start stop offset xs ++
        charsBetween start stop (offset + byteLength xs) ys := by
  induction xs generalizing offset with
  | nil => rfl
  | cons c xs ih =>
      rw [List.cons_append, charsBetween, charsBetween, ih, byteLength, Nat.add_assoc]
      split <;> rfl

theorem charsBetween_outside (h : offset + byteLength cs ≤ start ∨ stop ≤ offset) :
    charsBetween start stop offset cs = [] := by
  induction cs generalizing offset with
  | nil => rfl
  | cons c cs ih =>
      have width := Char.utf8Size_pos c
      rw [byteLength] at h
      rw [charsBetween, if_neg (by omega)]
      exact ih (by omega)

theorem charsBetween_inside (h : start ≤ offset) (h' : offset + byteLength cs ≤ stop) :
    charsBetween start stop offset cs = cs := by
  induction cs generalizing offset with
  | nil => rfl
  | cons c cs ih =>
      have width := Char.utf8Size_pos c
      rw [byteLength] at h'
      rw [charsBetween, if_pos (by omega), ih (by omega) (by omega)]

theorem Span.Spells.cut {text word : List Char} {s : Span} (h : s.Spells text word) :
    s.cut text = word := by
  obtain ⟨before, after, rfl, rfl⟩ := h
  rw [Span.cut, Lexer.byte_after_origin, Lexer.byte_after_origin, charsBetween_append,
    charsBetween_append, byteLength_append, charsBetween_outside (.inl (by omega)),
    charsBetween_inside (by omega) (by omega), charsBetween_outside (.inr (by omega))]
  simp

end Cuts

/-! ## Definitions of a forest -/

namespace Item

/-- The place of an item that is a symbol. -/
def symbol? : Item → Option Span
  | .atom .symbol span => some span
  | _ => none

/-- The place of the name that an item gives to a list whose second element it is, and that of the
context of the name, where the list has the given place. -/
def name? (whole : Span) : Item → Option (Span × Span)
  | .atom .symbol span => some (span, whole)
  | .list opening items closing =>
      ((elements items)[0]?.bind symbol?).map (·, ⟨opening.start, closing.stop⟩)
  | _ => none

/-- The definition that an item is, if it is one. -/
def definition? (text : List Char) : Item → Option Definition
  | .list opening items closing => do
      let operator ← (← (elements items)[0]?).symbol?
      let kind ← DefinitionKind.ofOperator? (operator.cut text)
      let (name, context) ← (← (elements items)[1]?).name? ⟨opening.start, closing.stop⟩
      return ⟨.ofList (name.cut text), kind, name, .ofList (context.cut text)⟩
  | _ => none

/-- The definitions of a forest, in the order in which their lists open. -/
def definitions (text : List Char) (row : List Item) : List Definition :=
  (listsRow row).filterMap (definition? text)

end Item

/-! ## Nodes of a tree that reads on -/

section Nodes

open MettaSyntax.Tree

variable {text : List Char}

theorem text?_eq_cut {u : Tree} (hu : u ∈ (parse text).nodes) :
    u.text? text = some (u.span.cut text) := by
  obtain ⟨word, spells⟩ := exists_spells hu
  rw [spells.cut]
  exact spells.slice?

theorem symbolWithin?_eq {e : Tree} {i : Item} (h : e.ReadsAs i) :
    e.symbolWithin? = i.symbol?.map fun span => ofToken ⟨.atom .symbol, span⟩ := by
  unfold symbolWithin?
  cases h with
  | @atom kind span symbol children =>
      have visible : visibleRow [ofToken ⟨.atom kind, span⟩] = [ofToken ⟨.atom kind, span⟩] := rfl
      rw [if_pos (by simp [isNonterminal, symbol]), visibleChildren_eq, children, visible]
      cases kind <;> rfl
  | list symbol children span between =>
      rw [if_neg (by simp [isNonterminal, symbol])]
      rfl

theorem formed_of_mem {u : Tree} (hu : u ∈ nodesRow (parse text).children)
    (visible : u.isVisible = true) : u.Formed ∧ u.isPart = true := by
  obtain ⟨n, whole⟩ := parse_repaired text
  rcases whole.of_mem_nodes hu with rfl | ⟨formed, part, -⟩
  · cases visible
  · exact ⟨formed, part⟩

/-- The list that a cursor comes to is below the root. -/
theorem list_mem_nodesRow {c : Cursor} (hc : c ∈ (parse text).preorder)
    (isList : c.tree.isNonterminal .list = true) : c.tree ∈ nodesRow (parse text).children := by
  have mem := mem_nodes_of_mem_preorder hc
  rw [nodes_eq] at mem
  rcases List.mem_cons.1 mem with root | below
  · rw [root, isNonterminal_parse] at isList
    cases isList
  · exact below

/-- A symbol in the tree is a token of the text. -/
theorem symbol_mem_tokens {span : Span}
    (hu : ofToken ⟨.atom .symbol, span⟩ ∈ nodesRow (parse text).children) :
    ⟨.atom .symbol, span⟩ ∈ Lexer.tokens text := by
  obtain ⟨t, ht, -, same⟩ := mem_tokens_of_isName hu (.inl rfl)
  exact ofToken_injective same ▸ ht

theorem mended_of_mem (mended : (parse text).Mended) {u : Tree}
    (hu : u ∈ nodesRow (parse text).children) : u.Mended := by
  apply mended.of_mem_nodes
  rw [nodes_eq]
  exact List.mem_cons_of_mem _ hu

/-- The list around a symbol that is one of its elements is the innermost one. -/
theorem listAround?_eq {list e : Tree} {span : Span} (hl : list ∈ nodesRow (parse text).children)
    (isList : list.isNonterminal .list = true) (shown : e ∈ list.visibleChildren)
    (reads : e.ReadsAs (.atom .symbol span)) : (parse text).listAround? span = some list := by
  obtain ⟨extent, ordered⟩ := parse_nodes text
  cases reads with
  | atom symbol children =>
      have heldE : ofToken ⟨.atom .symbol, span⟩ ∈ e.leaves := by
        rw [← leavesRow_children (by simp [children]), children]
        simp
      have inE : e ∈ list.nodes := by
        rw [nodes_eq]
        exact List.mem_cons_of_mem _ (mem_nodesRow_of_mem_visibleChildren shown)
      have held : ofToken ⟨.atom .symbol, span⟩ ∈ list.leaves :=
        (leaves_infix_of_mem_nodes inE).subset heldE
      have name : ofToken ⟨.atom .symbol, span⟩ ∈ nodesRow (parse text).children := by
        apply nodes_subset_nodesRow (nodes_subset_nodesRow hl inE)
        rw [nodes_eq, children]
        simp [nodesRow, ofToken, nodes]
      have width : (ofToken ⟨.atom .symbol, span⟩).span.start.byte <
          (ofToken ⟨.atom .symbol, span⟩).span.stop.byte :=
        (Lexer.tokens_placed text _ (symbol_mem_tokens name)).start_lt
      have down : lowestListAround span none (parse text) = lowestListAround span (some list) list :=
        lowestListAround_eq width isList held _ hl extent ordered none
      have ne : list.children ≠ [] := by
        intro none
        rw [visibleChildren_eq, none, visibleRow] at shown
        cases shown
      have extentL : ∀ v ∈ nodesRow list.children, v.Extent := fun v hv =>
        extent v (nodesRow_subset_of_mem hl hv)
      obtain ⟨lo, hi, orderedL⟩ := ordered.infix (leaves_infix_of_mem_nodesRow hl)
      rw [← leavesRow_children ne] at orderedL
      have step := (lowestListAround_visible width (by simp [children]) heldE list shown extentL
        orderedL (some list)).1
      have plain : e.isNonterminal .list = false := by simp [isNonterminal, symbol]
      rw [if_neg (by simp [plain])] at step
      rw [listAround?, down, show span = (ofToken ⟨.atom .symbol, span⟩).span from rfl, step]
      apply lowestListAround_of_leaves
      rw [children]
      simp [ofToken, Tree.children]

section Lists

variable (mended : (parse text).Mended) {list : Tree} (hl : list ∈ nodesRow (parse text).children)
include hl

theorem mem_of_mem_elements {e : Tree} (he : e ∈ elements list.children) :
    e ∈ list.visibleChildren ∧ e ∈ nodesRow (parse text).children ∧ e.Formed := by
  obtain ⟨shown, element⟩ := List.mem_filter.1 he
  rw [← visibleChildren_eq] at shown
  have mem : e ∈ nodesRow (parse text).children :=
    nodesRow_subset_of_mem hl (mem_nodesRow_of_mem_visibleChildren shown)
  exact ⟨shown, mem, (formed_of_mem mem (isVisible_of_isElement element)).1⟩

include mended

/-- The elements of a list and its items without comments correspond one to one. -/
theorem getElem?_elements (k : Nat) :
    (elements list.children)[k]? = none ∧ (Item.elements (itemsRow list.children))[k]? = none ∨
      ∃ e ∈ elements list.children, ∃ i, e.ReadsAs i ∧ (elements list.children)[k]? = some e ∧
        (Item.elements (itemsRow list.children))[k]? = some i := by
  have same : Item.elements (itemsRow list.children) =
      (elements list.children).flatMap Tree.items := by
    apply elements_itemsRow
    intro u hu
    have mem : u ∈ nodesRow (parse text).children :=
      nodesRow_subset_of_mem hl (visibleRow_subset_nodesRow _ hu)
    obtain ⟨formed, part⟩ := formed_of_mem mem (isVisible_of_mem_visibleRow hu)
    exact ⟨formed, mended_of_mem mended mem, part⟩
  rw [same]
  apply getElem?_flatMap_items
  intro e he
  obtain ⟨-, mem, formed⟩ := mem_of_mem_elements hl he
  exact formed.readsAs (List.mem_filter.1 he).2

/-- The symbol at the head of a list is its first element. -/
theorem head_symbol_eq (formed : list.Formed) (symbol : list.symbol = .nonterminal .list) :
    (list.child? .head).bind symbolWithin? =
      ((Item.elements (itemsRow list.children))[0]?.bind Item.symbol?).map
        fun span => ofToken ⟨.atom .symbol, span⟩ := by
  rw [(formed.child?_of_list symbol).1]
  rcases getElem?_elements mended hl 0 with ⟨none, none'⟩ | ⟨e, -, i, reads, found, found'⟩
  · rw [none, none']
    rfl
  · rw [found, found', Option.bind_some, Option.bind_some, symbolWithin?_eq reads]

/-- The name that an element of a list gives to it, and the context of the name, are told by the item
that the element is. -/
theorem name?_eq (isList : list.isNonterminal .list = true) {a : Tree} {i : Item}
    (ha : a ∈ elements list.children) (reads : a.ReadsAs i) :
    Definition.name? a =
        (i.name? list.span).map (fun place => ofToken ⟨.atom .symbol, place.1⟩) ∧
      ∀ name context, i.name? list.span = some (name, context) →
        ∃ u ∈ nodesRow (parse text).children,
          (parse text).listAround? name = some u ∧ u.span = context := by
  obtain ⟨shown, mem, formed⟩ := mem_of_mem_elements hl ha
  have within := symbolWithin?_eq reads
  unfold Definition.name?
  cases id reads with
  | @atom kind span symbol children =>
      rw [if_neg (by simp [isNonterminal, symbol]), within]
      refine ⟨by cases kind <;> rfl, fun name context h => ?_⟩
      cases kind <;> cases h
      exact ⟨list, hl, listAround?_eq hl isList shown reads, rfl⟩
  | @list o c mid missing symbol children span between =>
      have isListA : a.isNonterminal .list = true := by simp [isNonterminal, symbol]
      rw [if_pos isListA, head_symbol_eq mended mem formed symbol]
      refine ⟨?_, fun name context h => ?_⟩
      · rw [Item.name?, Option.map_map]
        rfl
      · obtain ⟨place, head, same⟩ := Option.map_eq_some_iff.1 h
        obtain ⟨first, found, isSymbol⟩ := Option.bind_eq_some_iff.1 head
        simp only [Prod.mk.injEq] at same
        obtain ⟨rfl, rfl⟩ := same
        refine ⟨a, mem, ?_, span⟩
        rcases getElem?_elements mended mem 0 with ⟨-, none⟩ | ⟨e, he, j, readsE, -, found'⟩
        · rw [none] at found
          cases found
        · obtain rfl : j = first := Option.some.inj (found'.symm.trans found)
          obtain ⟨shownE, -, -⟩ := mem_of_mem_elements mem he
          cases readsE with
          | @atom kind span symbol children =>
              cases kind <;> cases isSymbol
              exact listAround?_eq mem isListA shownE (.atom symbol children)
          | list symbol children span between => cases isSymbol

/-- The definition that a list makes is told by the item that the list is. -/
theorem ofList?_eq_definition? {i : Item} (reads : list.ReadsAs i)
    (isList : list.isNonterminal .list = true) :
    Definition.ofList? text (parse text) list = i.definition? text := by
  cases reads with
  | atom symbol children => simp [isNonterminal, symbol] at isList
  | @list o c mid missing symbol children span between =>
      obtain ⟨formed, -⟩ := formed_of_mem hl (by rw [isVisible, symbol]; rfl)
      have cut {u : Tree} (hu : u ∈ nodesRow (parse text).children) :
          u.text? text = some (u.span.cut text) := text?_eq_cut (by
        rw [nodes_eq]
        exact List.mem_cons_of_mem _ hu)
      have below {u : Tree} (hu : u ∈ nodesRow list.children) :
          u ∈ nodesRow (parse text).children := nodesRow_subset_of_mem hl hu
      have head := head_symbol_eq mended hl formed symbol
      rw [Definition.ofList?, Item.definition?, (formed.child?_of_list symbol).2]
      simp only [Option.bind_eq_bind]
      conv_rhs => rw [← Option.bind_assoc]
      cases first : (Item.elements (itemsRow list.children))[0]?.bind Item.symbol? with
      | none =>
          rw [first, Option.map_none] at head
          rw [head]
          rfl
      | some operator =>
          rw [first, Option.map_some] at head
          rw [head, Option.bind_some, Option.bind_some,
            cut (below (mem_nodesRow_of_child?_bind head).1), Option.bind_some]
          refine Option.bind_congr fun kind _ => ?_
          rcases getElem?_elements mended hl 1 with ⟨none, none'⟩ | ⟨a, ha, i, reads, found, found'⟩
          · rw [none, none']
            rfl
          · obtain ⟨-, mem, -⟩ := mem_of_mem_elements hl ha
            obtain ⟨named, around⟩ := name?_eq mended hl isList ha reads
            rw [span] at named around
            rw [found, found', Option.bind_some, Option.bind_some]
            cases second : i.name? ⟨o.start, c.stop⟩ with
            | none =>
                rw [second, Option.map_none] at named
                rw [named]
                rfl
            | some place =>
                obtain ⟨name, context⟩ := place
                rw [second, Option.map_some] at named
                obtain ⟨u, hu, lowest, rfl⟩ := around name context second
                have inner := nodesRow_subset_of_mem mem (mem_nodesRow_of_name? named).1
                have same : (ofToken ⟨.atom .symbol, name⟩).span = name := rfl
                rw [named, Option.bind_some, Option.bind_some, cut inner, Option.bind_some, same,
                  lowest, Option.getD_some, cut hu, Option.bind_some]

end Lists

/-- The items at the root have the tokens that the tree keeps, and the list nodes are the lists among
them. -/
theorem itemsRow_parse (mended : (parse text).Mended) :
    keptRow (parse text).children =
        Item.tokensRow (itemsRow (parse text).children) ++ [Lexer.endToken text] ∧
      (Definition.lists (parse text)).flatMap Tree.items =
        Item.listsRow (itemsRow (parse text).children) := by
  obtain ⟨n, label, row, split, parts, -, kinds⟩ := parse_repaired text
  have mendedRow : ∀ u ∈ row, u.Mended := by
    intro u hu
    apply mended.children
    rw [split]
    exact List.mem_append_left _ hu
  have bare : (ofToken (Lexer.endToken text)).items = [] := rfl
  have children : (parse text).children = row ++ [ofToken (Lexer.endToken text)] := by
    rw [split]
    rfl
  constructor
  · have solid : ∀ u ∈ row, u.IsSolid := by
      apply isSolid_of_counted fun u hu => (parts u hu).1
      rcases kinds with rfl | ⟨-, none | one⟩
      · rw [split] at mended
        cases mended with
        | stray broken stray =>
            -- the end of the text is below the root, and it is no stray parenthesis
            have last := stray (ofToken (Lexer.endToken text))
              (mem_nodesRow_of_mem (List.mem_append_right _ (List.mem_singleton_self _)))
            rcases last with skipped | closing
            · cases skipped
            · cases closing
      · simp [none]
      · simp [one]
    have read : keptRow row = Item.tokensRow (itemsRow row) :=
      tokens_itemsRow_of fun u hu => (parts u hu).1.tokens_items (mendedRow u hu) (solid u hu)
    rw [children, itemsRow_append, itemsRow_cons, itemsRow_nil, bare, keptRow_append, read,
      List.append_nil, List.append_nil, keptRow_cons, kept_ofToken, keptRow_nil, List.append_nil]
  · apply lists_itemsRow_of
    rw [children]
    intro u hu
    rcases List.mem_append.1 hu with hu | hu
    · exact (parts u hu).1.lists_items (mendedRow u hu)
    · obtain rfl := List.mem_singleton.1 hu
      rfl

/-- A tree without errors keeps the tokens of the text. -/
theorem keptRow_parse (clean : (parse text).Clean) :
    keptRow (parse text).children = Lexer.tokens text ++ [Lexer.endToken text] := by
  have leaves := (parse_whole clean).leaves
  obtain ⟨label, row, split, -⟩ := parse_whole clean
  have own : (parse text).kept = keptRow (parse text).children := by
    rw [split] at clean ⊢
    cases clean
    exact kept_production _ _ _
  rw [clean.leaves_eq, own, ← List.map_singleton (f := ofToken), ← List.map_append] at leaves
  exact List.map_injective_iff.2 ofToken_injective leaves

/-- The items at the root of a tree without errors have the tokens of the text. -/
theorem tokensRow_itemsRow (clean : (parse text).Clean) :
    Item.tokensRow (itemsRow (parse text).children) = Lexer.tokens text :=
  List.append_cancel_right ((itemsRow_parse clean.mended).1.symm.trans (keptRow_parse clean))

end Nodes

theorem filterMap_flatMap_items {α : Type} {f : Tree → Option α} {g : Item → Option α}
    {row : List Tree} (h : ∀ t ∈ row, ∃ i, t.items = [i] ∧ f t = g i) :
    row.filterMap f = (row.flatMap Tree.items).filterMap g := by
  induction row with
  | nil => rfl
  | cons t row ih =>
      obtain ⟨i, one, same⟩ := h t List.mem_cons_self
      rw [List.flatMap_cons, one, List.filterMap_append, List.filterMap_cons, same,
        ih fun u hu => h u (List.mem_cons_of_mem _ hu)]
      cases hg : g i <;> simp [hg]

/-- Where a tree reads on, its definitions are those of the forest that has the tokens it keeps. -/
theorem definitions_of_kept {text : List Char} (mended : (parse text).Mended) {items : List Item}
    (kept : Tree.keptRow (parse text).children = Item.tokensRow items ++ [Lexer.endToken text]) :
    Definition.all text (parse text) = Item.definitions text items := by
  obtain ⟨tokens, lists⟩ := itemsRow_parse mended
  obtain rfl := Item.tokensRow_injective (List.append_cancel_right (tokens.symm.trans kept))
  rw [Definition.all_eq text (isNonterminal_parse text), Item.definitions, ← lists]
  apply filterMap_flatMap_items
  intro list hlist
  obtain ⟨mem, isList⟩ := List.mem_filter.1 hlist
  have symbol : list.symbol = .nonterminal .list := by simpa [Tree.isNonterminal] using isList
  obtain ⟨formed, -⟩ := formed_of_mem mem (by rw [Tree.isVisible, symbol]; rfl)
  obtain ⟨i, reads⟩ := formed.readsAs (by rw [Tree.isElement, symbol]; rfl)
  exact ⟨i, reads.items, ofList?_eq_definition? mended mem reads isList⟩

/-- The definitions of a text without diagnostics are told by its tokens.  They are the tokens of
exactly one forest, which has one list for each opening parenthesis in order, and the definitions are
those of the lists of the forest. -/
theorem definitions_exact {text : List Char} (quiet : Diagnostic.all (parse text) = []) :
    ∃ items, Item.tokensRow items = Lexer.tokens text ∧
      (∀ other, Item.tokensRow other = Lexer.tokens text → other = items) ∧
      (Item.listsRow items).filterMap Item.opening? =
        ((Lexer.tokens text).filter (·.kind = .opening)).map Token.span ∧
      Definition.all text (parse text) = Item.definitions text items := by
  obtain ⟨n, whole⟩ := parse_repaired text
  have clean : (parse text).Clean := (whole.all_eq_nil_iff rfl).1 quiet
  have tokens := tokensRow_itemsRow clean
  refine ⟨Tree.itemsRow (parse text).children, tokens, fun other same => ?_, ?_, ?_⟩
  · exact Item.tokensRow_injective (same.trans tokens.symm)
  · rw [Item.openings_listsRow, tokens]
  · exact definitions_of_kept clean.mended (itemsRow_parse clean.mended).1

/-- The definition of a function with one argument. -/
theorem definitions_exact_functionLayout :
    Diagnostic.all (parse functionLayout.text) = [] ∧
      ∃ items, Item.tokensRow items = Lexer.tokens functionLayout.text ∧
        (∀ other, Item.tokensRow other = Lexer.tokens functionLayout.text → other = items) ∧
        (Item.listsRow items).filterMap Item.opening? =
          ((Lexer.tokens functionLayout.text).filter (·.kind = .opening)).map Token.span ∧
        Definition.all functionLayout.text (parse functionLayout.text) =
          Item.definitions functionLayout.text items :=
  ⟨functionLayout_quiet, definitions_exact functionLayout_quiet⟩

end MettaSyntax
