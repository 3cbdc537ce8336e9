import MettaSyntax.Proofs.Extraction

/-! # What a definition stands for

Errors change what a tree holds, but not what its definitions are.  Whatever a text is, each of its
definitions was read from a list whose first element is the symbol `=` or `:` and whose second element
is a symbol, or else a list whose first element is one.  That symbol is a token of the text, and it is
the name; the list that the name is an element of is the context. -/

set_option autoImplicit false

namespace MettaSyntax

open MettaSyntax.Tree

namespace DefinitionKind

def operator : DefinitionKind → List Char
  | .equation => ['=']
  | .typeDeclaration => [':']

theorem eq_operator {word : List Char} {kind : DefinitionKind} (h : ofOperator? word = some kind) :
    word = kind.operator := by
  unfold ofOperator? at h
  split at h <;> cases h <;> rfl

end DefinitionKind

/-! ## Texts of lists -/

/-- An opening parenthesis is scanned for what it is. -/
theorem Lexeme.text_of_opening {cs : List Char} {l : Lexeme} (h : scan? cs = some l)
    (hl : l.kind = .opening) : l.text = ['('] := by
  unfold scan? at h
  split at h
  · cases h
    cases hl
  · cases h
    rfl
  · cases h
    cases hl
  · cases h
    cases hl
  · obtain ⟨body, -, rfl⟩ := Option.map_eq_some_iff.1 h
    cases hl
  · unfold word? at h
    split at h <;> cases h
    cases hl

theorem Lexer.spells_opening {text : List Char} {t : Token} (ht : t ∈ tokens text)
    (opening : t.kind = .opening) : t.span.Spells text ['('] := by
  obtain ⟨before, body, after, split, -, span, scanned⟩ := tokens_placed text t ht
  have lexable : t.kind ≠ .unlexable := by simp [opening]
  obtain rfl : body = ['('] := Lexeme.text_of_opening (scanned.resolve_left lexable) opening
  exact ⟨before, after, split, span⟩

section Nodes

variable {text : List Char}

theorem spells_of_text? {u : Tree} (hu : u ∈ nodesRow (parse text).children) {word : List Char}
    (h : u.text? text = some word) : u.span.Spells text word := by
  obtain ⟨word', spells⟩ := exists_spells (nodes_eq (parse text) ▸ List.mem_cons_of_mem _ hu)
  obtain rfl : word' = word := Option.some.inj (spells.slice?.symm.trans h)
  exact spells

/-- The text of a list begins with its opening parenthesis. -/
theorem head?_of_spells_list {list : Tree} (hl : list ∈ nodesRow (parse text).children)
    (isList : list.symbol = .nonterminal .list) {word : List Char}
    (spells : list.span.Spells text word) : word.head? = some '(' := by
  obtain ⟨formed, -⟩ := formed_of_mem hl (by rw [isVisible, isList]; rfl)
  obtain ⟨i, reads⟩ := formed.readsAs (by rw [isElement, isList]; rfl)
  cases reads with
  | atom symbol children => cases symbol.symm.trans isList
  | @list o c mid missing symbol children span between =>
      have below : ofToken ⟨.opening, o⟩ ∈ nodesRow list.children := by
        rw [children]
        exact mem_nodesRow_of_mem List.mem_cons_self
      have symbolO : (ofToken ⟨.opening, o⟩).symbol = .token .opening := rfl
      obtain ⟨t, ht, opening, same⟩ :=
        mem_tokens_of_symbol (nodesRow_subset_of_mem hl below) symbolO (by simp) (by simp)
      have first := Lexer.spells_opening ht opening
      rw [← ofToken_injective same] at first
      have start : o.start.byte = list.span.start.byte := by rw [span]
      obtain ⟨rest, rfl⟩ := spells.begins first start (within_of_mem text hl below).2
      rfl

end Nodes

/-! ## Symbols and names -/

section Elements

variable {list head argument : Tree} (formed : list.Formed) (symbol : list.symbol = .nonterminal .list)
  (isHead : list.child? .head = some head)
include formed symbol isHead

theorem Tree.Formed.elements_of_head : ∃ more, elements list.children = head :: more := by
  rw [(formed.child?_of_list symbol).1, ← List.head?_eq_getElem?] at isHead
  exact List.head?_eq_some_iff.1 isHead

theorem Tree.Formed.elements_of_argument (isArgument : list.child? .argument = some argument) :
    ∃ more, elements list.children = head :: argument :: more := by
  obtain ⟨rest, row⟩ := formed.elements_of_head symbol isHead
  rw [(formed.child?_of_list symbol).2, row, List.getElem?_cons_succ,
    ← List.head?_eq_getElem?] at isArgument
  obtain ⟨more, rfl⟩ := List.head?_eq_some_iff.1 isArgument
  exact ⟨more, row⟩

end Elements

/-- A node is an atom, and what it consists of is the token `t` of the text, a symbol. -/
structure Tree.IsSymbol (text : List Char) (e : Tree) (t : Token) : Prop where
  atom : e.symbol = .nonterminal .atom
  children : e.children = [ofToken t]
  mem : t ∈ Lexer.tokens text
  kind : t.kind = .atom .symbol

/-- The second element of a list names what the list defines.  The name `t` is that element, or else
the first element of it, and the context is the list that the name is an element of. -/
inductive Tree.Names (text : List Char) (list : Tree) : Tree → Token → Tree → Prop
  | symbol {argument : Tree} {t : Token} (isSymbol : argument.IsSymbol text t) :
      Names text list argument t list
  | list {argument first : Tree} {more : List Tree} {t : Token}
      (isList : argument.symbol = .nonterminal .list)
      (elements : elements argument.children = first :: more) (isSymbol : first.IsSymbol text t) :
      Names text list argument t argument

section Symbols

variable {text : List Char} {list e u : Tree} {t : Token}

theorem Tree.IsSymbol.readsAs (h : e.IsSymbol text t) : e.ReadsAs (.atom .symbol t.span) := by
  obtain ⟨kind, span⟩ := t
  obtain ⟨atom, children, -, rfl⟩ := h
  exact .atom atom children

variable (hl : list ∈ nodesRow (parse text).children) (he : e ∈ elements list.children)
include hl he

/-- The symbol that an element consists of is a token of the text. -/
theorem exists_isSymbol (within : e.symbolWithin? = some u) :
    ∃ t, e.IsSymbol text t ∧ u = ofToken t := by
  obtain ⟨-, mem, formed⟩ := mem_of_mem_elements hl he
  obtain ⟨i, reads⟩ := formed.readsAs (List.mem_filter.1 he).2
  rw [symbolWithin?_eq reads] at within
  obtain ⟨span, found, rfl⟩ := Option.map_eq_some_iff.1 within
  cases reads with
  | @atom kind place symbol children =>
      cases kind <;> cases found
      have below : ofToken ⟨.atom .symbol, span⟩ ∈ nodesRow e.children := by
        rw [children]
        exact mem_nodesRow_of_mem List.mem_cons_self
      have token := symbol_mem_tokens (nodesRow_subset_of_mem mem below)
      exact ⟨_, ⟨symbol, children, token, rfl⟩, rfl⟩
  | list symbol children span between => cases found

/-- The innermost list around a symbol is the one that it is an element of. -/
theorem Tree.IsSymbol.listAround?_eq (h : e.IsSymbol text t)
    (isList : list.symbol = .nonterminal .list) :
    (parse text).listAround? t.span = some list ∧ ofToken t ∈ nodesRow list.children := by
  obtain ⟨shown, -, -⟩ := mem_of_mem_elements hl he
  have inside : ofToken t ∈ nodesRow e.children := by
    rw [h.children]
    exact mem_nodesRow_of_mem List.mem_cons_self
  exact ⟨MettaSyntax.listAround?_eq hl (by simp [isNonterminal, isList]) shown h.readsAs,
    nodesRow_subset_of_mem (mem_nodesRow_of_mem_visibleChildren shown) inside⟩

/-- The name that an element gives to a list is a token of the text, and the innermost list around the
name is its context. -/
theorem exists_names (isList : list.symbol = .nonterminal .list)
    (named : Definition.name? e = some u) :
    ∃ t context, Names text list e t context ∧ u = ofToken t ∧ t ∈ Lexer.tokens text ∧
      t.kind = .atom .symbol ∧ context ∈ nodesRow (parse text).children ∧
      context.symbol = .nonterminal .list ∧
      (parse text).listAround? t.span = some context ∧ ofToken t ∈ nodesRow context.children := by
  obtain ⟨-, mem, formed⟩ := mem_of_mem_elements hl he
  unfold Definition.name? at named
  split at named
  · next isListE =>
    have symbol : e.symbol = .nonterminal .list := by simpa [isNonterminal] using isListE
    obtain ⟨first, found, within⟩ := Option.bind_eq_some_iff.1 named
    obtain ⟨more, shown⟩ := formed.elements_of_head symbol found
    have hf : first ∈ elements e.children := shown ▸ List.mem_cons_self
    obtain ⟨t, isSymbol, rfl⟩ := exists_isSymbol mem hf within
    obtain ⟨around, below⟩ := isSymbol.listAround?_eq mem hf symbol
    exact ⟨t, e, .list symbol shown isSymbol, rfl, isSymbol.mem, isSymbol.kind, mem, symbol, around, below⟩
  · obtain ⟨t, isSymbol, rfl⟩ := exists_isSymbol hl he named
    obtain ⟨around, below⟩ := isSymbol.listAround?_eq hl he isList
    exact ⟨t, list, .symbol isSymbol, rfl, isSymbol.mem, isSymbol.kind, hl, isList, around, below⟩

end Symbols

/-! ## Definitions -/

namespace Definition

/-- What a list has to hold for a definition to be read from it. -/
theorem ofList?_eq_some {text : List Char} {root list : Tree} {d : Definition}
    (h : ofList? text root list = some d) :
    ∃ head operator word argument name, list.child? .head = some head ∧
      head.symbolWithin? = some operator ∧ operator.text? text = some word ∧
      DefinitionKind.ofOperator? word = some d.kind ∧ list.child? .argument = some argument ∧
      name? argument = some name ∧ name.span = d.span ∧ name.text? text = some d.name.toList ∧
      ((root.listAround? name.span).getD name).text? text = some d.context.toList := by
  simp only [ofList?, Option.bind_eq_bind, Option.bind_eq_some_iff] at h
  obtain ⟨operator, ⟨head, isHead, within⟩, word, spelt, kind, isKind, argument, isArgument, name, named,
    nameText, nameSpelt, contextText, contextSpelt, same⟩ := h
  cases same
  exact ⟨head, operator, word, argument, name, isHead, within, spelt, isKind, isArgument, named, rfl,
    by simpa using nameSpelt, by simpa using contextSpelt⟩

end Definition

/-- A definition says what a list in the tree of a text says: `name` is the token that the list gives a
definition of, and `context` the list that the name is an element of. -/
structure Definition.Genuine (text : List Char) (d : Definition) (list : Tree) (name : Token)
    (context : Tree) : Prop where
  /-- The list begins with the symbol for the kind of definition, and goes on with the name. -/
  elements : ∃ head argument more operator, elements list.children = head :: argument :: more ∧
    head.IsSymbol text operator ∧ operator.span.Spells text d.kind.operator ∧
    Names text list argument name context
  /-- The name is one whole symbol of the text, on a single row. -/
  token : name ∈ Lexer.tokens text ∧ name.kind = .atom .symbol ∧ name.span = d.span
  spells : d.span.Spells text d.name.toList
  row : d.span.start.row = d.span.stop.row
  /-- The context is the text of a list around the name. -/
  around : context.span.Spells text d.context.toList
  opening : d.context.toList.head? = some '('
  within : context.span.start.byte ≤ d.span.start.byte ∧ d.span.stop.byte ≤ context.span.stop.byte
  /-- The name is what is under each of its bytes. -/
  nameAt : ∀ offset : UInt64, d.span.Covers (offset.toNat % UInt32.size) →
    nameAt? text (parse text) offset = some d.name.toList

/-- Whatever a text is, each of its definitions was read from a list in the tree and says what the list
says. -/
theorem definitions_genuine {text : List Char} {d : Definition}
    (hd : d ∈ Definition.all text (parse text)) :
    ∃ c ∈ (parse text).preorder, c.tree.isNonterminal .list = true ∧
      Definition.ofList? text (parse text) c.tree = some d ∧
      ∃ name context, d.Genuine text c.tree name context := by
  obtain ⟨c, hc, found⟩ := List.mem_filterMap.1 hd
  obtain ⟨isList, found⟩ := Option.ite_none_right_eq_some.1 found
  have hl := list_mem_nodesRow hc isList
  have list : c.tree.symbol = .nonterminal .list := by simpa [isNonterminal] using isList
  obtain ⟨formed, -⟩ := formed_of_mem hl (by rw [isVisible, list]; rfl)
  obtain ⟨head, operator, word, argument, name, isHead, isSymbol, spelt, kind, isArgument, named, place,
    nameSpelt, contextSpelt⟩ := Definition.ofList?_eq_some found
  obtain ⟨more, row⟩ := formed.elements_of_argument list isHead isArgument
  obtain ⟨o, isOperator, rfl⟩ := exists_isSymbol hl (row ▸ List.mem_cons_self) isSymbol
  obtain ⟨t, context, names, rfl, token, symbol, inTree, isContext, innermost, below⟩ :=
    exists_names hl (row ▸ List.mem_cons_of_mem _ List.mem_cons_self) list named
  have spells : t.span.Spells text d.name.toList := (Lexer.spells_iff token).2 nameSpelt
  have operatorSpells := (Lexer.spells_iff isOperator.mem).2 spelt
  rw [DefinitionKind.eq_operator kind] at operatorSpells
  have sameSpan : (ofToken t).span = t.span := rfl
  rw [sameSpan] at place contextSpelt
  rw [innermost, Option.getD_some] at contextSpelt
  have contextSpells := spells_of_text? inTree contextSpelt
  have within := within_of_mem text inTree below
  rw [sameSpan, place] at within
  rw [place] at spells
  refine ⟨c, hc, isList, found, t, context, ?_⟩
  exact {
    elements := ⟨head, argument, more, o, row, isOperator, operatorSpells, names⟩
    token := ⟨token, symbol, place⟩
    spells
    row := by
      rw [← place]
      exact (Lexer.tokens_placed text t token).row (by simp [symbol]) (by simp [symbol])
    around := contextSpells
    opening := head?_of_spells_list inTree isContext contextSpells
    within
    nameAt := fun offset covers => nameAt?_eq_some_iff.2
      ⟨t, token, by simp [Token.isName, symbol], by rwa [place], by rwa [place]⟩ }

/-- A text of which the whole is an error, with another error inside of the list that is the context
of a definition. -/
def brokenText : List Char :=
  "(g (= (f \x00 $x) 1) (: b".toList

def brokenDefinition : Definition :=
  ⟨"f", .equation, ⟨⟨7, 0, 7⟩, ⟨8, 0, 8⟩⟩, "(f \x00 $x)"⟩

theorem definitions_genuine_broken :
    brokenDefinition ∈ Definition.all brokenText (parse brokenText) ∧
      ∃ c ∈ (parse brokenText).preorder, c.tree.isNonterminal .list = true ∧
        Definition.ofList? brokenText (parse brokenText) c.tree = some brokenDefinition ∧
        ∃ name context, brokenDefinition.Genuine brokenText c.tree name context := by
  have read : brokenDefinition ∈ Definition.all brokenText (parse brokenText) := by decide +kernel
  exact ⟨read, definitions_genuine read⟩

end MettaSyntax
