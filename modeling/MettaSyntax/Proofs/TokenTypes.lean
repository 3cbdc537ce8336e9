import MettaSyntax.Proofs.Extraction

/-! # The types of semantic tokens

Several rules of the query may capture one symbol, and the one whose capture has the smallest number
gives the token its type.  In a text without errors this comes to a rule of precedence on words: the
words of the language go first, then the symbol at the head of a list, and all others are alike. -/

set_option autoImplicit false

namespace MettaSyntax

/-! ## The types -/

namespace Item

/-- The place of the first element of a list, if that is a symbol. -/
def head? : Item → Option Span
  | .list _ items _ => (elements items)[0]?.bind symbol?
  | _ => none

/-- The places of the symbols that are the first element of a list, at any depth of a forest. -/
def heads (row : List Item) : List Span :=
  (listsRow row).filterMap head?

end Item

namespace SemanticToken

/-- The type of a symbol: a boolean, a keyword or a constant wherever it stands, else an operator or a
function at the head of a list, and else a variable. -/
def typeOfWord (isHead : Bool) (word : String) : Nat :=
  if word ∈ ["True", "False"] then 9
  else if word ∈
      ["if", "let", "let*", "match", "case", "collapse", "superpose", "empty", "Error"] then 2
  else if word ∈ ["Cons", "Nil"] then 12
  else if isHead then if word ∈ ["=", ":", "->"] then 4 else 6
  else 5

/-- The type of a token of a text, in which symbols at the given places head a list. -/
def typeOfToken? (text : List Char) (heads : List Span) (t : Token) : Option Nat :=
  match t.kind with
  | .comment => some 0
  | .opening => some 10
  | .closing => some 10
  | .atom .string => some 1
  | .atom .number => some 3
  | .atom .variable => some 5
  | .atom .symbol => some (typeOfWord (t.span ∈ heads) (.ofList (t.span.cut text)))
  | .ending => none
  | .unlexable => none

theorem types_relativeTo (p : Position) (hs : List HighlightSpan) :
    (relativeTo p hs).map (some ·.type) = hs.map (some ·.type) := by
  induction hs generalizing p with
  | nil => rfl
  | cons h hs ih =>
      rw [relativeTo, List.map_cons, List.map_cons, ih]
      unfold relative
      split <;> rfl

end SemanticToken

/-! ## What the rules capture -/

namespace Tree

/-- The head of a list is its first element. -/
theorem Formed.head_mem_iff {t e : Tree} (h : t.Formed) (part : t.isPart = true)
    (symbol : t.symbol = .nonterminal .list) :
    (some .head, e) ∈ t.labelledChildren ↔ (elements t.children)[0]? = some e := by
  obtain ⟨opening, inner, closing, split, opens, -, closes, kinds, fields⟩ :=
    (h.wellShaped part).list symbol
  have plain {u : Tree} {k : TokenKind} (token : u.symbol = .token k) : u.isElement = false := by
    rw [isElement, token]
    rfl
  have shown : elements t.children = (inner.filter (·.2.isElement)).map Prod.snd := by
    have all : (t.labelledChildren.filter (·.2.isElement)).map Prod.snd = elements t.children := by
      rw [elements, ← map_snd_labelledRow t.fields none 0, List.filter_map]
      rfl
    rw [← all, split, List.filter_cons_of_neg (by simp [plain opens]), List.filter_append,
      List.filter_cons_of_neg (by simp [plain closes]), List.filter_nil, List.append_nil]
  have inside : (some .head, e) ∈ t.labelledChildren ↔
      (some .head, e) ∈ inner.filter (·.2.isElement) := by
    rw [split]
    simp only [List.mem_cons, List.mem_append, Prod.mk.injEq, reduceCtorEq, false_and, false_or,
      List.not_mem_nil, or_false, List.mem_filter]
    refine ⟨fun mem => ⟨mem, ?_⟩, And.left⟩
    rcases kinds _ mem with element | ⟨none, -⟩
    · exact element
    · cases none
  rw [inside, shown]
  unfold elementFields at fields
  generalize inner.filter (·.2.isElement) = row at fields
  cases row with
  | nil => simp
  | cons first row =>
      obtain ⟨field, u⟩ := first
      rcases fields with none | ⟨n, told⟩
      · cases none
      · obtain ⟨rfl, rest⟩ := List.cons.inj told
        simp only [List.map_cons, List.getElem?_cons_zero, Option.some.injEq, List.mem_cons,
          Prod.mk.injEq, true_and]
        constructor
        · rintro (same | later)
          · exact same.symm
          · have argument := List.mem_map_of_mem (f := Prod.fst) later
            rw [rest] at argument
            cases List.eq_of_mem_replicate argument
        · exact fun same => .inl same.symm

/-- Below a node with one token for its child there is that token. -/
theorem labelledChildren_of_token {t : Tree} {token : Token} (children : t.children = [ofToken token])
    (visible : token.kind ≠ .ending) : ∃ field, t.labelledChildren = [(field, ofToken token)] := by
  have seen (field : Option Field) : (ofToken token).labelled field = [(field, ofToken token)] := by
    have shown : (ofToken token).isVisible = true := visible_of_ne_ending visible
    rw [labelled_eq, if_pos shown]
  rw [labelledChildren, children, labelledRow, labelledRow]
  split
  · exact ⟨none, by rw [seen]; rfl⟩
  · exact ⟨_, by rw [seen, labelledRow]; rfl⟩

end Tree

namespace Highlight

open MettaSyntax.Tree

theorem mem_matchTree_leaf {kind : TokenKind} {name : String} {t : Tree} {found : List Capture} :
    found ∈ (leaf kind name).matchTree t ↔ t.symbol = .token kind ∧ found = [(name, t)] := by
  rw [leaf, Pattern.matchTree, Pattern.matchBelow]
  split
  · next symbol => simp [symbol]
  · next other => simp [other]

/-- An atom is captured by its symbol, if it is one. -/
theorem matchTree_symbolAtom {e : Tree} {i : Item} (reads : e.ReadsAs i) (name : String) :
    (symbolAtom name).matchTree e =
      (i.symbol?.map fun span => [(name, ofToken ⟨.atom .symbol, span⟩)]).toList := by
  rw [symbolAtom, Pattern.matchTree]
  cases reads with
  | list symbol children span between =>
      rw [if_neg (by simp [symbol])]
      rfl
  | @atom kind span symbol children =>
      obtain ⟨field, below⟩ := labelledChildren_of_token children (by simp)
      rw [if_pos symbol, below]
      cases kind <;>
        simp [Pattern.matchBelow, Pattern.choices, Item.symbol?, leaf, Pattern.matchTree, ofToken,
          Tree.symbol, TokenKind.toSymbol]

section Lists

variable {text : List Char} (mended : (parse text).Mended) {list : Tree}
  (hl : list ∈ nodesRow (parse text).children)
include mended hl

/-- What a list pattern captures first is the symbol at the head of the list. -/
theorem head_of_mem_matchTree {name : String} {more : List (Option Field × Pattern)}
    {found : List Capture} (mem : found ∈ (listHeadedBy name more).matchTree list) :
    list.symbol = .nonterminal .list ∧ ∃ span rest,
      (Item.elements (itemsRow list.children))[0]?.bind Item.symbol? = some span ∧
        found = (name, ofToken ⟨.atom .symbol, span⟩) :: rest ∧
        ∃ row, (∀ d ∈ row, d ∈ list.labelledChildren) ∧ rest ∈ Pattern.matchBelow more row := by
  rw [listHeadedBy, Pattern.matchTree] at mem
  split at mem
  · next symbol =>
      obtain ⟨formed, part⟩ := formed_of_mem hl (by rw [isVisible, symbol]; rfl)
      refine ⟨symbol, ?_⟩
      simp only [Option.map_none, Option.toList_none, List.nil_append, List.map_id'] at mem
      rw [Pattern.matchBelow] at mem
      obtain ⟨⟨d, after⟩, chosen, matched⟩ := List.mem_flatMap.1 mem
      obtain ⟨before, split⟩ := Pattern.append_of_mem_choices chosen
      dsimp only at matched
      split at matched
      · next isHead =>
          obtain ⟨field, e⟩ := d
          obtain rfl : field = some .head := by simpa using isHead
          have labelled : (some .head, e) ∈ list.labelledChildren := by
            rw [split]
            exact List.mem_append_right _ List.mem_cons_self
          have first := (formed.head_mem_iff part symbol).1 labelled
          obtain ⟨here, atom, matched⟩ := List.mem_flatMap.1 matched
          obtain ⟨rest, hrest, rfl⟩ := List.mem_map.1 matched
          rcases getElem?_elements mended hl 0 with ⟨none, -⟩ | ⟨e', -, i, reads, same, item⟩
          · rw [none] at first
            cases first
          · obtain rfl : e' = e := Option.some.inj (same.symm.trans first)
            rw [matchTree_symbolAtom reads] at atom
            obtain ⟨span, symbolic, rfl⟩ := Option.map_eq_some_iff.1 (Option.mem_toList.1 atom)
            refine ⟨span, rest, by rw [item, Option.bind_some, symbolic], rfl, after, ?_, hrest⟩
            intro d hd
            rw [split]
            exact List.mem_append_right _ (List.mem_cons_of_mem _ hd)
      · cases matched
  · cases mem

theorem mem_matchTree_of_head {span : Span} (symbol : list.symbol = .nonterminal .list)
    (head : (Item.elements (itemsRow list.children))[0]?.bind Item.symbol? = some span)
    (name : String) :
    [(name, ofToken ⟨.atom .symbol, span⟩)] ∈ (listHeadedBy name []).matchTree list := by
  obtain ⟨formed, part⟩ := formed_of_mem hl (by rw [isVisible, symbol]; rfl)
  rcases getElem?_elements mended hl 0 with ⟨-, none⟩ | ⟨e, -, i, reads, first, item⟩
  · rw [none] at head
    cases head
  · rw [item, Option.bind_some] at head
    have labelled := (formed.head_mem_iff part symbol).2 first
    obtain ⟨before, after, split⟩ := List.append_of_mem labelled
    have chosen := Pattern.mem_choices_append before after (some Field.head, e)
    have here : [(name, ofToken ⟨.atom .symbol, span⟩)] ∈ (symbolAtom name).matchTree e := by
      rw [matchTree_symbolAtom reads, head]
      exact List.mem_singleton_self _
    rw [listHeadedBy, Pattern.matchTree, if_pos symbol, split, Pattern.matchBelow]
    refine List.mem_map.2 ⟨_, List.mem_flatMap.2 ⟨_, chosen, ?_⟩, rfl⟩
    dsimp only
    rw [if_pos (by simp)]
    refine List.mem_flatMap.2 ⟨_, here, ?_⟩
    rw [Pattern.matchBelow]
    exact List.mem_singleton_self _

end Lists

/-- The symbols that head a list node are those that head a list of the forest. -/
theorem mem_heads_iff {text : List Char} (mended : (parse text).Mended) {span : Span} :
    span ∈ Item.heads (itemsRow (parse text).children) ↔
      ∃ list ∈ nodesRow (parse text).children, list.symbol = .nonterminal .list ∧
        (Item.elements (itemsRow list.children))[0]?.bind Item.symbol? = some span := by
  have told : Item.heads (itemsRow (parse text).children) = (Definition.lists (parse text)).filterMap
      fun list => (Item.elements (itemsRow list.children))[0]?.bind Item.symbol? := by
    rw [Item.heads, ← (itemsRow_parse mended).2]
    symm
    apply filterMap_flatMap_items
    intro list hlist
    obtain ⟨mem, isList⟩ := List.mem_filter.1 hlist
    have symbol : list.symbol = .nonterminal .list := by simpa [isNonterminal] using isList
    obtain ⟨formed, -⟩ := formed_of_mem mem (by rw [isVisible, symbol]; rfl)
    obtain ⟨i, reads⟩ := formed.readsAs (by rw [isElement, symbol]; rfl)
    refine ⟨i, reads.items, ?_⟩
    cases reads with
    | atom atom children => cases symbol.symm.trans atom
    | list symbol children span between => rfl
  rw [told, List.mem_filterMap]
  constructor
  · rintro ⟨list, hlist, head⟩
    obtain ⟨mem, isList⟩ := List.mem_filter.1 hlist
    exact ⟨list, mem, by simpa [isNonterminal] using isList, head⟩
  · rintro ⟨list, mem, symbol, head⟩
    exact ⟨list, List.mem_filter.2 ⟨mem, by simp [isNonterminal, symbol]⟩, head⟩

/-! ## Which captures a token has -/

theorem any_text_iff {word : List Char} {texts : List String} :
    (texts.any (·.toList = word)) = true ↔ String.ofList word ∈ texts := by
  simp only [List.any_eq_true, decide_eq_true_eq]
  constructor
  · rintro ⟨s, mem, rfl⟩
    rw [String.ofList_toList]
    exact mem
  · exact fun mem => ⟨_, mem, String.toList_ofList⟩

/-- The ways in which a token with a given text can be captured, at the head of a list or not. -/
inductive Fits (isHead : Prop) (word : String) : TokenKind → String → Prop
  | token {kind : TokenKind} {name : String} (rule : ⟨leaf kind name, none⟩ ∈ rules) :
      Fits isHead word kind name
  | word {name : String} {texts : List String}
      (rule : ⟨leaf (.atom .symbol) name, some (name, texts)⟩ ∈ rules) (allowed : word ∈ texts) :
      Fits isHead word (.atom .symbol) name
  | operator (head : isHead) (allowed : word ∈ ["=", ":", "->"]) :
      Fits isHead word (.atom .symbol) "operator"
  | definition (head : isHead) : Fits isHead word (.atom .symbol) "function.definition"
  | call (head : isHead) : Fits isHead word (.atom .symbol) "function.call"

theorem cases_of_mem_rules {rule : HighlightRule} (h : rule ∈ rules) :
    (∃ kind name, rule = ⟨leaf kind name, none⟩) ∨
    (∃ name texts, rule = ⟨leaf (.atom .symbol) name, some (name, texts)⟩) ∨
    rule = ⟨listHeadedBy "operator" [], some ("operator", ["=", ":", "->"])⟩ ∨
    rule = ⟨listHeadedBy "operator" [(some .argument, listHeadedBy "function.definition" [])],
      some ("operator", ["="])⟩ ∨
    rule = ⟨listHeadedBy "function.call" [], none⟩ := by
  simp only [rules, List.mem_cons, List.not_mem_nil, or_false] at h
  rcases h with rfl | rfl | rfl | rfl | rfl | rfl | rfl | rfl | rfl | rfl | rfl | rfl | rfl
  · exact .inl ⟨_, _, rfl⟩
  · exact .inl ⟨_, _, rfl⟩
  · exact .inl ⟨_, _, rfl⟩
  · exact .inl ⟨_, _, rfl⟩
  · exact .inr (.inl ⟨_, _, rfl⟩)
  · exact .inr (.inl ⟨_, _, rfl⟩)
  · exact .inr (.inl ⟨_, _, rfl⟩)
  · exact .inr (.inr (.inl rfl))
  · exact .inr (.inr (.inr (.inl rfl)))
  · exact .inr (.inr (.inr (.inr rfl)))
  · exact .inl ⟨_, _, rfl⟩
  · exact .inl ⟨_, _, rfl⟩
  · exact .inl ⟨_, _, rfl⟩

section Tokens

variable {text : List Char} {t : Token} {name : String}

/-- A rule allows only some texts under one of its captures. -/
theorem allowed_of_admits (ht : ofToken t ∈ (parse text).nodes) {pattern : Pattern}
    {texts : List String} {found : List Capture}
    (admits : (HighlightRule.mk pattern (some (name, texts))).admits text found = true)
    (mem : (name, ofToken t) ∈ found) : String.ofList (t.span.cut text) ∈ texts := by
  have own : (ofToken t).text? text = some (t.span.cut text) := text?_eq_cut ht
  simp only [HighlightRule.admits, Option.all_some, List.all_eq_true] at admits
  have here := admits _ mem
  simp only [own, Option.any_some, ne_eq, not_true_eq_false, decide_false, Bool.false_or] at here
  exact any_text_iff.1 here

theorem admits_of_allowed (ht : ofToken t ∈ (parse text).nodes) (pattern : Pattern)
    {texts : List String} (allowed : String.ofList (t.span.cut text) ∈ texts) :
    (HighlightRule.mk pattern (some (name, texts))).admits text [(name, ofToken t)] = true := by
  have own : (ofToken t).text? text = some (t.span.cut text) := text?_eq_cut ht
  simp only [HighlightRule.admits, Option.all_some, List.all_cons, List.all_nil, Bool.and_true, own,
    Option.any_some, ne_eq, not_true_eq_false, decide_false, Bool.false_or]
  exact any_text_iff.2 allowed

variable (mended : (parse text).Mended)
include mended

/-- A pattern for the head of a list alone captures a symbol at the head of a list. -/
theorem head_of_mem_listHeadedBy {list : Tree} (hl : list ∈ nodesRow (parse text).children)
    {found : List Capture} (mem : found ∈ (listHeadedBy name []).matchTree list) :
    ∃ span ∈ Item.heads (itemsRow (parse text).children),
      found = [(name, ofToken ⟨.atom .symbol, span⟩)] := by
  obtain ⟨symbol, span, rest, head, rfl, row, -, none⟩ := head_of_mem_matchTree mended hl mem
  rw [Pattern.matchBelow] at none
  rw [List.mem_singleton.1 none]
  exact ⟨span, (mem_heads_iff mended).2 ⟨list, hl, symbol, head⟩, rfl⟩

theorem fits_of_captured (captured : (name, ofToken t) ∈ captures text (parse text)) :
    Fits (t.span ∈ Item.heads (itemsRow (parse text).children)) (.ofList (t.span.cut text)) t.kind
      name := by
  obtain ⟨n, whole⟩ := parse_repaired text
  have below : ofToken t ∈ (parse text).nodes :=
    (token_of_mem_captures whole.isVisible captured).1
  obtain ⟨rule, hr, u, hu, visible, found, hf, admits, mem⟩ :=
    (mem_captures whole.isVisible).1 captured
  have inner (list : u.symbol = .nonterminal .list) : u ∈ nodesRow (parse text).children := by
    rw [nodes_eq] at hu
    rcases List.mem_cons.1 hu with rfl | node
    · rcases whole.root_symbol with file | error
      · cases list.symm.trans file
      · cases list.symm.trans error
    · exact node
  have same {a b : String} {x y : Token} (h : (a, ofToken x) = (b, ofToken y)) : a = b ∧ x = y :=
    ⟨(Prod.mk.inj h).1, ofToken_injective (Prod.mk.inj h).2⟩
  rcases cases_of_mem_rules hr with ⟨kind, name', rfl⟩ | ⟨name', texts, rfl⟩ | rfl | rfl | rfl
  · obtain ⟨symbol, rfl⟩ := mem_matchTree_leaf.1 hf
    obtain ⟨rfl, rfl⟩ := Prod.mk.inj (List.mem_singleton.1 mem)
    obtain rfl := eq_of_toSymbol symbol
    exact .token hr
  · obtain ⟨symbol, rfl⟩ := mem_matchTree_leaf.1 hf
    obtain ⟨rfl, rfl⟩ := Prod.mk.inj (List.mem_singleton.1 mem)
    rw [eq_of_toSymbol symbol]
    exact .word hr (allowed_of_admits below admits mem)
  · have list := inner (Pattern.symbol_of_mem_matchTree hf)
    obtain ⟨span, head, rfl⟩ := head_of_mem_listHeadedBy mended list hf
    obtain ⟨rfl, rfl⟩ := same (List.mem_singleton.1 mem)
    exact .operator head (allowed_of_admits below admits mem)
  · have list := inner (Pattern.symbol_of_mem_matchTree hf)
    obtain ⟨symbol, span, rest, head, rfl, row, within, more⟩ := head_of_mem_matchTree mended list hf
    rcases List.mem_cons.1 mem with first | second
    · obtain ⟨rfl, rfl⟩ := same first
      have equals := allowed_of_admits below admits mem
      exact .operator ((mem_heads_iff mended).2 ⟨u, list, symbol, head⟩)
        (List.mem_cons.2 (.inl (List.mem_singleton.1 equals)))
    · rw [Pattern.matchBelow] at more
      obtain ⟨⟨d, after⟩, chosen, matched⟩ := List.mem_flatMap.1 more
      obtain ⟨before, rfl⟩ := Pattern.append_of_mem_choices chosen
      dsimp only at matched
      split at matched
      · obtain ⟨first, hfirst, matched⟩ := List.mem_flatMap.1 matched
        have argument : d.2 ∈ nodesRow (parse text).children :=
          nodesRow_subset_of_mem list
            (mem_of_mem_labelledChildren (within d (by simp))).1
        obtain ⟨span', head', rfl⟩ := head_of_mem_listHeadedBy mended argument hfirst
        obtain ⟨last, none, rfl⟩ := List.mem_map.1 matched
        rw [Pattern.matchBelow] at none
        obtain rfl := List.mem_singleton.1 none
        obtain ⟨rfl, rfl⟩ := same (List.mem_singleton.1 second)
        exact .definition head'
      · cases matched
  · have list := inner (Pattern.symbol_of_mem_matchTree hf)
    obtain ⟨span, head, rfl⟩ := head_of_mem_listHeadedBy mended list hf
    obtain ⟨rfl, rfl⟩ := same (List.mem_singleton.1 mem)
    exact .call head

/-- A token of the text is captured in every way that fits it, where the name does not tell more of what
is around it. -/
theorem captured_of_fits (ht : t ∈ Lexer.tokens text) (lexable : t.kind ≠ .unlexable)
    (fits : Fits (t.span ∈ Item.heads (itemsRow (parse text).children))
      (.ofList (t.span.cut text)) t.kind name)
    (other : name ≠ "function.definition") : (name, ofToken t) ∈ captures text (parse text) := by
  obtain ⟨n, whole⟩ := parse_repaired text
  have below : ofToken t ∈ (parse text).nodes := ofToken_mem_nodes ht
  have symbol := symbol_ofToken lexable
  have visible : (ofToken t).isVisible = true := visible_of_ne_ending (Lexer.tokens_ne_ending text t ht)
  have atHead (head : t.span ∈ Item.heads (itemsRow (parse text).children))
      (kind : t.kind = .atom .symbol) (name : String) :
      ∃ list ∈ (parse text).nodes, list.isVisible = true ∧
        [(name, ofToken t)] ∈ (listHeadedBy name []).matchTree list := by
    obtain ⟨list, hl, isList, first⟩ := (mem_heads_iff mended).1 head
    have found := mem_matchTree_of_head mended hl isList first name
    refine ⟨list, ?_, by rw [isVisible, isList]; rfl, ?_⟩
    · rw [nodes_eq]
      exact List.mem_cons_of_mem _ hl
    · rwa [← kind] at found
  generalize kindEq : t.kind = kind at fits
  rw [mem_captures whole.isVisible]
  cases fits with
  | token rule =>
      exact ⟨_, rule, _, below, visible, _, mem_matchTree_leaf.2 ⟨kindEq ▸ symbol, rfl⟩, rfl,
        List.mem_singleton_self _⟩
  | word rule allowed =>
      exact ⟨_, rule, _, below, visible, _, mem_matchTree_leaf.2 ⟨kindEq ▸ symbol, rfl⟩,
        admits_of_allowed below _ allowed, List.mem_singleton_self _⟩
  | operator head allowed =>
      obtain ⟨list, hl, seen, found⟩ := atHead head kindEq "operator"
      have rule : ⟨listHeadedBy "operator" [], some ("operator", ["=", ":", "->"])⟩ ∈ rules := by
        simp [rules]
      exact ⟨_, rule, list, hl, seen, _, found, admits_of_allowed below _ allowed,
        List.mem_singleton_self _⟩
  | definition head => exact absurd rfl other
  | call head =>
      obtain ⟨list, hl, seen, found⟩ := atHead head kindEq "function.call"
      have rule : ⟨listHeadedBy "function.call" [], none⟩ ∈ rules := by simp [rules]
      exact ⟨_, rule, list, hl, seen, _, found, rfl, List.mem_singleton_self _⟩

end Tokens

/-! ## Precedence -/

theorem name_of_token {kind : TokenKind} {name : String} (rule : ⟨leaf kind name, none⟩ ∈ rules) :
    (kind, name) ∈ [(TokenKind.comment, "comment"), (.atom .string, "string"),
      (.atom .number, "number"), (.atom .variable, "variable"), (.atom .symbol, "symbol"),
      (.opening, "punctuation.bracket"), (.closing, "punctuation.bracket")] := by
  simpa [rules, listHeadedBy, leaf] using rule

theorem Fits.name_of_plain {isHead : Prop} {word name : String} {kind : TokenKind}
    (fits : Fits isHead word kind name) (plain : kind ≠ .atom .symbol) :
    (kind, name) ∈ [(TokenKind.comment, "comment"), (.atom .string, "string"),
      (.atom .number, "number"), (.atom .variable, "variable"), (.atom .symbol, "symbol"),
      (.opening, "punctuation.bracket"), (.closing, "punctuation.bracket")] := by
  cases fits with
  | token rule => exact name_of_token rule
  | _ => exact absurd rfl plain

theorem boolean_mem_rules :
    ⟨leaf (.atom .symbol) "boolean", some ("boolean", ["True", "False"])⟩ ∈ rules := by
  simp [rules]

theorem keyword_mem_rules :
    ⟨leaf (.atom .symbol) "keyword", some ("keyword",
      ["if", "let", "let*", "match", "case", "collapse", "superpose", "empty", "Error"])⟩ ∈ rules := by
  simp [rules]

theorem constant_mem_rules :
    ⟨leaf (.atom .symbol) "constant", some ("constant", ["Cons", "Nil"])⟩ ∈ rules := by
  simp [rules]

theorem name_of_word {name : String} {texts : List String}
    (rule : ⟨leaf (.atom .symbol) name, some (name, texts)⟩ ∈ rules) :
    (name, texts) ∈ [("boolean", ["True", "False"]),
      ("keyword",
        ["if", "let", "let*", "match", "case", "collapse", "superpose", "empty", "Error"]),
      ("constant", ["Cons", "Nil"])] := by
  simpa [rules, listHeadedBy, leaf] using rule

/-- The names for symbols, in the order in which they take precedence. -/
theorem captureIndex_symbols :
    captureIndex "boolean" = 4 ∧ captureIndex "keyword" = 5 ∧ captureIndex "constant" = 6 ∧
      captureIndex "operator" = 7 ∧ captureIndex "function.definition" = 8 ∧
      captureIndex "function.call" = 9 ∧ captureIndex "symbol" = 10 := by
  decide

section Precedence

variable {isHead : Prop} {word name : String}
  (first : ∀ n, Fits isHead word (.atom .symbol) n → n ≠ "function.definition" →
    captureIndex name ≤ captureIndex n)
include first

/-- A symbol has no text for which it would be captured earlier. -/
theorem not_mem_of_first {n : String} {texts : List String}
    (rule : ⟨leaf (.atom .symbol) n, some (n, texts)⟩ ∈ rules) (other : n ≠ "function.definition")
    (early : captureIndex n < captureIndex name) : word ∉ texts := fun allowed =>
  absurd (first n (.word rule allowed) other) (Nat.not_le.2 early)

variable [Decidable isHead]

/-- A symbol that is captured for its place or as it stands has none of the texts that are captured for
themselves. -/
theorem typeOfWord_of_place (late : 7 ≤ captureIndex name) :
    SemanticToken.typeOfWord isHead word =
      if isHead then if word ∈ ["=", ":", "->"] then 4 else 6 else 5 := by
  obtain ⟨boolean, keyword, constant, -⟩ := captureIndex_symbols
  have notBoolean := not_mem_of_first first boolean_mem_rules (by simp) (by omega)
  have notKeyword := not_mem_of_first first keyword_mem_rules (by simp) (by omega)
  have notConstant := not_mem_of_first first constant_mem_rules (by simp) (by omega)
  rw [SemanticToken.typeOfWord, if_neg notBoolean, if_neg notKeyword, if_neg notConstant]
  simp only [decide_eq_true_eq]

/-- The first of the captures that fit a symbol tells its type. -/
theorem typeOf?_of_first (fits : Fits isHead word (.atom .symbol) name) :
    SemanticToken.typeOf? name = some (SemanticToken.typeOfWord isHead word) := by
  obtain ⟨boolean, keyword, constant, operator, definition, call, symbol⟩ := captureIndex_symbols
  generalize kindEq : TokenKind.atom .symbol = kind at fits
  cases fits with
  | token rule =>
      subst kindEq
      obtain rfl : name = "symbol" := by simpa using name_of_token rule
      -- a symbol at the head of a list would have been captured for that
      have plain : ¬ isHead := fun head => by
        have least := first "function.call" (.call head) (by simp)
        omega
      rw [typeOfWord_of_place first (by omega), if_neg plain]
      rfl
  | word rule allowed =>
      have known := name_of_word rule
      simp only [List.mem_cons, Prod.mk.injEq, List.not_mem_nil, or_false] at known
      rcases known with ⟨rfl, rfl⟩ | ⟨rfl, rfl⟩ | ⟨rfl, rfl⟩
      · rw [SemanticToken.typeOfWord, if_pos allowed]
        rfl
      · have notBoolean := not_mem_of_first first boolean_mem_rules (by simp) (by omega)
        rw [SemanticToken.typeOfWord, if_neg notBoolean, if_pos allowed]
        rfl
      · have notBoolean := not_mem_of_first first boolean_mem_rules (by simp) (by omega)
        have notKeyword := not_mem_of_first first keyword_mem_rules (by simp) (by omega)
        rw [SemanticToken.typeOfWord, if_neg notBoolean, if_neg notKeyword, if_pos allowed]
        rfl
  | operator head allowed =>
      rw [typeOfWord_of_place first (by omega), if_pos head, if_pos allowed]
      rfl
  | definition head =>
      have other : word ∉ ["=", ":", "->"] := fun allowed => by
        have least := first "operator" (.operator head allowed) (by simp)
        omega
      rw [typeOfWord_of_place first (by omega), if_pos head, if_neg other]
      rfl
  | call head =>
      have other : word ∉ ["=", ":", "->"] := fun allowed => by
        have least := first "operator" (.operator head allowed) (by simp)
        omega
      rw [typeOfWord_of_place first (by omega), if_pos head, if_neg other]
      rfl

end Precedence

/-- The capture of a token with the smallest number tells its type. -/
theorem typeOf?_of_least {text : List Char} (mended : (parse text).Mended) {t : Token} {name : String}
    (ht : t ∈ Lexer.tokens text) (lexable : t.kind ≠ .unlexable)
    (captured : (name, ofToken t) ∈ captures text (parse text))
    (least : ∀ n, (n, ofToken t) ∈ captures text (parse text) →
      captureIndex name ≤ captureIndex n) :
    SemanticToken.typeOf? name =
      SemanticToken.typeOfToken? text (Item.heads (itemsRow (parse text).children)) t := by
  have fits := fits_of_captured mended captured
  have first : ∀ n, Fits (t.span ∈ Item.heads (itemsRow (parse text).children))
      (.ofList (t.span.cut text)) t.kind n → n ≠ "function.definition" →
        captureIndex name ≤ captureIndex n := fun n fits other =>
    least n (captured_of_fits mended ht lexable fits other)
  rw [SemanticToken.typeOfToken?]
  generalize t.kind = kind at fits first ⊢
  -- only a symbol can be captured in several ways
  by_cases symbol : kind = .atom .symbol
  · subst symbol
    exact typeOf?_of_first first fits
  · have plain := fits.name_of_plain symbol
    simp only [List.mem_cons, Prod.mk.injEq, List.not_mem_nil, or_false] at plain
    rcases plain with ⟨rfl, rfl⟩ | ⟨rfl, rfl⟩ | ⟨rfl, rfl⟩ | ⟨rfl, rfl⟩ | ⟨rfl, rfl⟩ | ⟨rfl, rfl⟩ |
      ⟨rfl, rfl⟩
    · rfl
    · rfl
    · rfl
    · rfl
    · exact absurd rfl symbol
    · rfl
    · rfl

end Highlight

/-! ## The types of the tokens of a text -/

namespace HighlightSpan

/-- The highlight that is kept for a token has the type of the token. -/
theorem type_of_mem_kept {text : List Char} (mended : (parse text).Mended) {h : HighlightSpan}
    (mem : h ∈ kept none (all text (parse text))) :
    ∃ t ∈ Lexer.tokens text, t.onOneRow = true ∧ h.stretch = t.span.stretch ∧
      some h.type = SemanticToken.typeOfToken? text
        (Item.heads (Tree.itemsRow (parse text).children)) t := by
  obtain ⟨n, whole⟩ := parse_repaired text
  obtain ⟨present, first⟩ := mem_kept_iff.1 mem
  obtain ⟨t, ht, level, name, captured, some⟩ := capture_of_mem_all present
  obtain ⟨type, typed, row, column, rfl⟩ := of?_eq_some_iff.1 some
  refine ⟨t, ht, level, ?_, ?_⟩
  · have width := ((Lexer.tokens_placed text t ht).column row).2
    show Stretch.mk _ _ (t.span.stop.column - t.span.start.column) = ⟨_, _, t.span.bytes⟩
    rw [width, Nat.add_sub_cancel_left]
    rfl
  · rw [← typed]
    apply Highlight.typeOf?_of_least mended ht ((Token.onOneRow_iff t).1 level).1 captured
    intro other also
    have named : (SemanticToken.typeOf? other).isSome = true := by
      have all : ∀ n ∈ Highlight.captureNames, (SemanticToken.typeOf? n).isSome = true := by decide
      exact all other (Highlight.name_of_mem_captures whole.isVisible also)
    obtain ⟨type', typed'⟩ := Option.isSome_iff_exists.1 named
    -- the other capture has a highlight at the same place, where this one was kept
    have rival := mem_all.2 ⟨_, also, of?_eq_some_iff.2 ⟨type', typed', row, column, rfl⟩⟩
    exact first _ rival ⟨rfl, rfl⟩

end HighlightSpan

theorem map_eq_map_of {α β γ δ : Type} {xs : List α} {ys : List β} {f : α → γ} {g : β → γ}
    {f' : α → δ} {g' : β → δ} (same : xs.map f = ys.map g)
    (h : ∀ x ∈ xs, ∀ y ∈ ys, f x = g y → f' x = g' y) : xs.map f' = ys.map g' := by
  induction xs generalizing ys with
  | nil => rw [List.map_eq_nil_iff.1 same.symm]; rfl
  | cons x xs ih =>
      cases ys with
      | nil => cases same
      | cons y ys =>
          obtain ⟨first, rest⟩ := List.cons.inj same
          rw [List.map_cons, List.map_cons, h x List.mem_cons_self y List.mem_cons_self first,
            ih rest fun u hu v hv => h u (List.mem_cons_of_mem _ hu) v (List.mem_cons_of_mem _ hv)]

/-- Every semantic token of a text without diagnostics has the type that is documented for it.  The
semantic tokens stand for the tokens of the text on one row, one after another.  A symbol has its type
from its text and from whether it is the first element of its list, which the tokens tell: they are
those of exactly one forest of items. -/
theorem token_types_exact {text : List Char} (quiet : Diagnostic.all (parse text) = []) :
    ∃ items, Item.tokensRow items = Lexer.tokens text ∧
      (∀ other, Item.tokensRow other = Lexer.tokens text → other = items) ∧
      SemanticToken.decode (SemanticToken.encode text (parse text)) =
        ((Lexer.tokens text).filter Token.onOneRow).map (·.span.stretch) ∧
      (SemanticToken.all text (parse text)).map (some ·.type) =
        ((Lexer.tokens text).filter Token.onOneRow).map
          (SemanticToken.typeOfToken? text (Item.heads items)) := by
  have clean := parse_clean quiet
  have tokens := tokensRow_itemsRow clean
  refine ⟨Tree.itemsRow (parse text).children, tokens, fun other same => ?_, ?_, ?_⟩
  · exact Item.tokensRow_injective (same.trans tokens.symm)
  · rw [SemanticToken.decode_encode, HighlightSpan.stretches_kept, Lexer.stretches]
  · rw [SemanticToken.all_eq, SemanticToken.types_relativeTo]
    apply map_eq_map_of HighlightSpan.stretches_kept
    intro h hh t ht place
    obtain ⟨mem, level⟩ := List.mem_filter.1 ht
    obtain ⟨u, hu, levelU, placeU, typed⟩ := HighlightSpan.type_of_mem_kept clean.mended hh
    have same := placeU.symm.trans place
    obtain rfl : u = t := Lexer.tokens_unique text hu levelU mem level
      (congrArg Stretch.row same) (congrArg Stretch.column same)
    exact typed

/-- The types in the definition of a function with one argument. -/
theorem token_types_functionLayout :
    Diagnostic.all (parse functionLayout.text) = [] ∧
      ∃ items, Item.tokensRow items = Lexer.tokens functionLayout.text ∧
        (∀ other, Item.tokensRow other = Lexer.tokens functionLayout.text → other = items) ∧
        SemanticToken.decode (SemanticToken.encode functionLayout.text (parse functionLayout.text)) =
          ((Lexer.tokens functionLayout.text).filter Token.onOneRow).map (·.span.stretch) ∧
        (SemanticToken.all functionLayout.text (parse functionLayout.text)).map (some ·.type) =
          ((Lexer.tokens functionLayout.text).filter Token.onOneRow).map
            (SemanticToken.typeOfToken? functionLayout.text (Item.heads items)) :=
  ⟨functionLayout_quiet, token_types_exact functionLayout_quiet⟩

end MettaSyntax
