import MettaSyntax.Proofs.Acceptance

/-! # The forest of a tree

An item is an atom, a comment or a list of items, with the places of its tokens.  Items can be read
back from their tokens in only one way.  A tree without errors has a forest of items: it has their
tokens for leaves, and shows one node for each atom, list, comment and parenthesis. -/

set_option autoImplicit false

namespace MettaSyntax

inductive Item where
  | atom (kind : AtomKind) (span : Span)
  | comment (span : Span)
  | list (opening : Span) (items : List Item) (closing : Span)

namespace Item

mutual

def tokens : Item → List Token
  | .atom kind span => [⟨.atom kind, span⟩]
  | .comment span => [⟨.comment, span⟩]
  | .list opening items closing =>
      ⟨.opening, opening⟩ :: (tokensRow items ++ [⟨.closing, closing⟩])

def tokensRow : List Item → List Token
  | [] => []
  | i :: row => tokens i ++ tokensRow row

end

def isComment : Item → Bool
  | .comment _ => true
  | _ => false

mutual

/-- What a reader is told about an item under a field: one node for a list with a node for each of
its parentheses, and one node for an atom with one for its token. -/
def shown (depth : Nat) (field : Option Field) : Item → List Shown
  | .atom kind span =>
      [⟨depth, field, .nonterminal .atom, false, span⟩,
        ⟨depth + 1, none, .token (.atom kind), false, span⟩]
  | .comment span => [⟨depth, field, .token .comment, false, span⟩]
  | .list opening items closing =>
      ⟨depth, field, .nonterminal .list, false, ⟨opening.start, closing.stop⟩⟩ ::
        ⟨depth + 1, none, .token .opening, false, opening⟩ ::
        (shownRow (depth + 1) (some .head) (some .argument) items ++
          [⟨depth + 1, none, .token .closing, false, closing⟩])

/-- What a reader is told about a row of items, the first of which has one field and the later ones
another.  Comments have none. -/
def shownRow (depth : Nat) (first later : Option Field) : List Item → List Shown
  | [] => []
  | i :: row =>
      if i.isComment then shown depth none i ++ shownRow depth first later row
      else shown depth first i ++ shownRow depth later later row

end

@[simp] theorem tokensRow_nil : tokensRow [] = [] := rfl

@[simp] theorem tokensRow_cons (i : Item) (row : List Item) :
    tokensRow (i :: row) = i.tokens ++ tokensRow row := by
  simp [tokensRow]

@[simp] theorem tokensRow_append (xs ys : List Item) :
    tokensRow (xs ++ ys) = tokensRow xs ++ tokensRow ys := by
  induction xs with
  | nil => rfl
  | cons i xs ih => simp [ih]

theorem shownRow_cons (depth : Nat) (first later : Option Field) (i : Item) (row : List Item) :
    shownRow depth first later (i :: row) =
      if i.isComment then shown depth none i ++ shownRow depth first later row
      else shown depth first i ++ shownRow depth later later row := by
  rw [shownRow]

theorem shownRow_append (depth : Nat) (field : Option Field) (xs ys : List Item) :
    shownRow depth field field (xs ++ ys) =
      shownRow depth field field xs ++ shownRow depth field field ys := by
  induction xs with
  | nil => rfl
  | cons i xs ih =>
      rw [List.cons_append, shownRow_cons, shownRow_cons, ih]
      split
      · rw [List.append_assoc]
      · rw [List.append_assoc]

/-! ## Reading items back -/

/-- A row of tokens does not begin with an item. -/
def Stops (tokens : List Token) : Prop :=
  ∀ t ∈ tokens.head?, t.kind = .closing

theorem tokens_head (i : Item) : ∃ t rest, i.tokens = t :: rest ∧ t.kind ≠ .closing := by
  cases i with
  | atom kind span => exact ⟨_, [], by rw [tokens], by simp⟩
  | comment span => exact ⟨_, [], by rw [tokens], by simp⟩
  | list opening items closing => exact ⟨_, _, by rw [tokens], by simp⟩

theorem ne_of_stops {tokens : List Token} (h : Stops tokens) (i : Item) (row : List Item)
    (rest : List Token) : tokens ≠ tokensRow (i :: row) ++ rest := by
  rintro rfl
  obtain ⟨t, more, split, open'⟩ := tokens_head i
  apply open'
  apply h
  rw [tokensRow_cons, split]
  rfl

/-- There is only one way to read a row of items. -/
theorem tokensRow_unique (xs ys : List Item) {rest rest' : List Token} (h : Stops rest)
    (h' : Stops rest') (same : tokensRow xs ++ rest = tokensRow ys ++ rest') :
    xs = ys ∧ rest = rest' := by
  match xs, ys with
  | [], [] => exact ⟨rfl, same⟩
  | [], y :: ys => exact absurd same (ne_of_stops h y ys rest')
  | x :: xs, [] => exact absurd same.symm (ne_of_stops h' x xs rest)
  | .atom kind span :: xs, y :: ys =>
      rw [tokensRow_cons, tokensRow_cons, tokens] at same
      cases y with
      | atom kind' span' =>
          rw [tokens] at same
          simp only [List.nil_append, List.cons_append, List.cons.injEq, Token.mk.injEq,
            TokenKind.atom.injEq] at same
          obtain ⟨⟨rfl, rfl⟩, same⟩ := same
          obtain ⟨rfl, rfl⟩ := tokensRow_unique xs ys h h' same
          exact ⟨rfl, rfl⟩
      | comment span' => simp [tokens] at same
      | list opening items closing => simp [tokens] at same
  | .comment span :: xs, y :: ys =>
      rw [tokensRow_cons, tokensRow_cons, tokens] at same
      cases y with
      | comment span' =>
          rw [tokens] at same
          simp only [List.nil_append, List.cons_append, List.cons.injEq, Token.mk.injEq,
            true_and] at same
          obtain ⟨rfl, same⟩ := same
          obtain ⟨rfl, rfl⟩ := tokensRow_unique xs ys h h' same
          exact ⟨rfl, rfl⟩
      | atom kind' span' => simp [tokens] at same
      | list opening items closing => simp [tokens] at same
  | .list opening items closing :: xs, y :: ys =>
      rw [tokensRow_cons, tokensRow_cons, tokens] at same
      cases y with
      | list opening' items' closing' =>
          rw [tokens] at same
          simp only [List.cons_append, List.append_assoc, List.nil_append, List.cons.injEq,
            Token.mk.injEq, true_and] at same
          obtain ⟨rfl, same⟩ := same
          have stops (span : Span) (more : List Token) : Stops (⟨.closing, span⟩ :: more) := by
            rintro t ⟨rfl⟩
            rfl
          -- the closing parenthesis stops the items within the list
          obtain ⟨rfl, inner⟩ := tokensRow_unique items items' (stops _ _) (stops _ _) same
          simp only [List.cons.injEq, Token.mk.injEq, true_and] at inner
          obtain ⟨rfl, outer⟩ := inner
          obtain ⟨rfl, rfl⟩ := tokensRow_unique xs ys h h' outer
          exact ⟨rfl, rfl⟩
      | atom kind' span' => simp [tokens] at same
      | comment span' => simp [tokens] at same
  termination_by sizeOf xs

end Item

namespace Tree

/-! ## Trees that show items -/

theorem shownRow_append (depth : Nat) (entries : List FieldEntry) (field : Option Field)
    (index : Nat) (xs ys : List Tree) :
    shownRow depth entries field index (xs ++ ys) =
      shownRow depth entries field index xs ++
        shownRow depth entries field (index + (counted xs).length) ys := by
  induction xs generalizing index with
  | nil => simp [shownRow]
  | cons t xs ih =>
      rw [List.cons_append, shownRow, shownRow]
      by_cases extra : t.isExtra = true
      · rw [if_pos extra, if_pos extra, ih, counted_cons_extra extra, List.append_assoc]
      · have counts : t.isExtra = false := by simpa using extra
        rw [if_neg extra, if_neg extra, ih, counted_cons counts, List.append_assoc,
          List.length_cons, Nat.add_assoc, Nat.add_comm 1]

/-- A tree has the tokens of an item, and shows it. -/
structure IsItem (t : Tree) (i : Item) : Prop where
  leaves : t.leaves = i.tokens.map .ofToken
  shown : ∀ depth field, t.shown depth field = i.shown depth field

/-- A hidden tree has the tokens of a row of items, and shows them, all with one field. -/
structure IsChain (field : Option Field) (t : Tree) (items : List Item) : Prop where
  leaves : t.leaves = (Item.tokensRow items).map .ofToken
  shown : ∀ depth, t.shown depth none = Item.shownRow depth field field items

/-- A row of trees below a node has the tokens of a row of items, and shows them. -/
structure IsRow (entries : List FieldEntry) (index : Nat) (first later : Option Field)
    (row : List Tree) (items : List Item) : Prop where
  leaves : leavesRow row = (Item.tokensRow items).map .ofToken
  shown : ∀ depth, shownRow depth entries none index row = Item.shownRow depth first later items

section Rows

variable {entries : List FieldEntry} {index : Nat} {first later : Option Field} {t : Tree}
  {i : Item} {row : List Tree} {items more : List Item}

theorem IsRow.nil : IsRow entries index first later [] [] :=
  ⟨rfl, fun _ => by rw [shownRow, Item.shownRow]⟩

theorem IsRow.extra (h : IsItem t i) (extra : t.isExtra = true) (comment : i.isComment = true)
    (rest : IsRow entries index first later row items) :
    IsRow entries index first later (t :: row) (i :: items) := by
  refine ⟨by simp [h.leaves, rest.leaves], fun depth => ?_⟩
  rw [shownRow, if_pos extra, Item.shownRow_cons, if_pos comment, h.shown, rest.shown]

theorem IsRow.element (h : IsItem t i) (counts : t.isExtra = false) (element : i.isComment = false)
    (own : FieldEntry.own? entries index = first)
    (rest : IsRow entries (index + 1) later later row items) :
    IsRow entries index first later (t :: row) (i :: items) := by
  refine ⟨by simp [h.leaves, rest.leaves], fun depth => ?_⟩
  rw [shownRow, if_neg (by simp [counts]), Item.shownRow_cons, if_neg (by simp [element]), own,
    Option.or_none, h.shown, rest.shown]

theorem IsRow.chain (h : IsChain first t items) (counts : t.isExtra = false)
    (own : FieldEntry.own? entries index = none)
    (rest : IsRow entries (index + 1) first first row more) :
    IsRow entries index first first (t :: row) (items ++ more) := by
  refine ⟨by simp [h.leaves, rest.leaves], fun depth => ?_⟩
  rw [shownRow, if_neg (by simp [counts]), own, Option.or_none, h.shown, rest.shown,
    Item.shownRow_append]

end Rows

theorem eq_of_toSymbol {k kind : TokenKind} (h : k.toSymbol = .token kind) : k = kind := by
  cases k with
  | unlexable => cases h
  | ending => exact Symbol.token.inj h
  | opening => exact Symbol.token.inj h
  | closing => exact Symbol.token.inj h
  | atom k => exact Symbol.token.inj h
  | comment => exact Symbol.token.inj h

theorem Clean.eq_ofToken {t : Tree} (h : Clean t) {kind : TokenKind}
    (symbol : t.symbol = .token kind) : ∃ span, t = ofToken ⟨kind, span⟩ := by
  cases h with
  | @leaf token lexable =>
      obtain ⟨k, span⟩ := token
      obtain rfl : k = kind := eq_of_toSymbol symbol
      exact ⟨span, rfl⟩
  | node _ => cases symbol

theorem Clean.isItem_of_isExtra {t : Tree} (h : Clean t) (formed : t.Formed)
    (extra : t.isExtra = true) : ∃ span, t.IsItem (.comment span) := by
  cases h with
  | node _ => cases extra
  | @leaf token lexable =>
      obtain ⟨kind, span⟩ := token
      cases formed with
      | leaf inside _ =>
          have comment : kind = .comment := by
            simp only [ofToken, isExtra, Bool.or_eq_true, decide_eq_true_eq] at extra
            exact extra.resolve_right inside
          subst comment
          refine ⟨span, ?_, fun depth field => ?_⟩
          · rw [leaves_ofToken, Item.tokens]
            rfl
          · rw [ofToken, Tree.shown, Item.shown]
            rfl

/-- What is known of a tree without errors: an element is an item, and a chain is a row of them. -/
structure Reads (t : Tree) : Prop where
  formed : t.Formed
  clean : t.Clean
  element : Production.isElement t.symbol = true → ∃ i : Item, i.isComment = false ∧ t.IsItem i
  expressions : t.symbol = .nonterminal .expressions → ∃ items, t.IsChain none items
  arguments : t.symbol = .nonterminal .arguments → ∃ items, t.IsChain (some .argument) items

section Rows

variable {entries : List FieldEntry} {index : Nat} {first later : Option Field} {row : List Tree}
  (known : ∀ t ∈ row, t.Reads)
include known

theorem exists_isRow_append {extras : List Tree} {after : List Tree} {items : List Item}
    (allExtra : ∀ e ∈ extras, e.isExtra = true) (split : extras ++ after <:+ row)
    (rest : IsRow entries index first later after items) :
    ∃ items, IsRow entries index first later (extras ++ after) items := by
  induction extras with
  | nil => exact ⟨items, rest⟩
  | cons e extras ih =>
      have mem : e ∈ row := split.subset List.mem_cons_self
      obtain ⟨more, tail⟩ := ih (fun u hu => allExtra u (List.mem_cons_of_mem _ hu))
        ((List.suffix_cons e _).trans split)
      have extra := allExtra e List.mem_cons_self
      obtain ⟨span, item⟩ := (known e mem).clean.isItem_of_isExtra (known e mem).formed extra
      exact ⟨.comment span :: more, .extra item extra rfl tail⟩

theorem exists_isRow_extras (h : counted row = []) :
    ∃ items, IsRow entries index first later row items := by
  have rest : IsRow entries index first later [] [] := .nil
  have all := exists_isRow_append known (counted_eq_nil_iff.1 h) (by simp) rest
  rwa [List.append_nil] at all

theorem exists_isRow_element {x : Symbol} {xs : List Symbol} (h : counted row = x :: xs)
    (element : Production.isElement x = true) (own : FieldEntry.own? entries index = first)
    (rest : ∀ after, (∀ t ∈ after, t.Reads) → counted after = xs →
      ∃ items, IsRow entries (index + 1) later later after items) :
    ∃ items, IsRow entries index first later row items := by
  obtain ⟨extras, t, after, rfl, allExtra, counts, symbol, tail⟩ := exists_of_counted_eq_cons h
  have mem : t ∈ extras ++ t :: after := by simp
  obtain ⟨i, plain, item⟩ := (known t mem).element (symbol ▸ element)
  obtain ⟨items, row⟩ := rest after (fun u hu => known u (by simp [hu])) tail
  exact exists_isRow_append known allExtra List.suffix_rfl (.element item counts plain own row)

theorem exists_isRow_chain {x : Symbol} {xs : List Symbol} (h : counted row = x :: xs)
    (chain : ∀ t ∈ row, t.symbol = x → ∃ items, t.IsChain first items)
    (own : FieldEntry.own? entries index = none)
    (rest : ∀ after, (∀ t ∈ after, t.Reads) → counted after = xs →
      ∃ items, IsRow entries (index + 1) first first after items) :
    ∃ items, IsRow entries index first first row items := by
  obtain ⟨extras, t, after, rfl, allExtra, counts, symbol, tail⟩ := exists_of_counted_eq_cons h
  obtain ⟨items, inner⟩ := chain t (by simp) symbol
  obtain ⟨more, row⟩ := rest after (fun u hu => known u (by simp [hu])) tail
  exact exists_isRow_append known allExtra List.suffix_rfl (.chain inner counts own row)

end Rows

/-! ## Each production -/

theorem Tight.ends {row : List Tree} (tight : Tight row) {x y : Symbol} {xs : List Symbol}
    (h : counted row = x :: (xs ++ [y])) :
    ∃ t mid u, row = t :: (mid ++ [u]) ∧ t.symbol = x ∧ u.symbol = y ∧ counted mid = xs := by
  obtain ⟨t, after, rfl, -, symbol, tail⟩ := exists_head_of_counted tight.1 h
  have last : ∀ u ∈ after.getLast?, u.isExtra = false := by
    intro u hu
    apply tight.2
    rw [List.getLast?_cons, hu]
    rfl
  obtain ⟨mid, u, rfl, -, symbol', inner⟩ := exists_last_of_counted last tail
  exact ⟨t, mid, u, rfl, symbol, symbol', inner⟩

theorem Tight.singleton {row : List Tree} (tight : Tight row) {x : Symbol}
    (h : counted row = [x]) : ∃ t, row = [t] ∧ t.symbol = x := by
  obtain ⟨t, after, rfl, -, symbol, tail⟩ := exists_head_of_counted tight.1 h
  cases last : after.getLast? with
  | none =>
      obtain rfl := List.getLast?_eq_none_iff.1 last
      exact ⟨t, rfl, symbol⟩
  | some u =>
      have counts : u.isExtra = false := tight.2 u (by rw [List.getLast?_cons, last]; rfl)
      rw [counted_eq_nil_iff.1 tail u (List.mem_of_getLast? last)] at counts
      cases counts

theorem isItem_atom {k : AtomKind} {p : Position} {span : Span} :
    (ofChildren (.production .atom) p [ofToken ⟨.atom k, span⟩]).IsItem (.atom k span) := by
  refine ⟨?_, fun depth field => ?_⟩
  · rw [leaves_ofChildren, Item.tokens]
    simp
  · have place : hull p [ofToken ⟨.atom k, span⟩] = span := rfl
    rw [ofChildren, Tree.shown, Item.shown, place]
    rfl

theorem isItem_list {q : Production} (list : q.result = .list) {p : Position} {o c : Span}
    {mid : List Tree} {items : List Item}
    (inner : IsRow q.fields 1 (some .head) (some .argument) mid items)
    (first : FieldEntry.own? q.fields 0 = none)
    (last : FieldEntry.own? q.fields (1 + (counted mid).length) = none) :
    (ofChildren (.production q) p
      (ofToken ⟨.opening, o⟩ :: (mid ++ [ofToken ⟨.closing, c⟩]))).IsItem (.list o items c) := by
  refine ⟨?_, fun depth field => ?_⟩
  · rw [leaves_ofChildren, Item.tokens]
    simp [inner.leaves]
  · have place : hull p (ofToken ⟨.opening, o⟩ :: (mid ++ [ofToken ⟨.closing, c⟩])) =
        ⟨o.start, c.stop⟩ := by
      simp [hull, List.getLast?_cons, ofToken, Tree.span]
    have visible : (Label.production q).symbol = .nonterminal .list := by
      rw [Label.symbol, list]
    have shows : (Symbol.nonterminal .list).visible = true := rfl
    have opening : (ofToken ⟨.opening, o⟩).isExtra = false := rfl
    have closing : (ofToken ⟨.closing, c⟩).isExtra = false := rfl
    have leaf (kind : TokenKind) (span : Span) (h : kind.toSymbol.visible = true) :
        (ofToken ⟨kind, span⟩).shown (depth + 1) none =
          [⟨depth + 1, none, kind.toSymbol, false, span⟩] := by
      rw [ofToken, Tree.shown, if_pos h]
    rw [ofChildren, Tree.shown, Item.shown, place, visible, if_pos shows, Label.fields,
      shownRow, if_neg (by simp [opening]), first, shownRow_append, inner.shown, shownRow,
      if_neg (by simp [closing]), last, shownRow, Option.or_none, leaf _ _ rfl, leaf _ _ rfl,
      List.append_nil]
    rfl

def inside : Production → List Symbol → Prop
  | .emptyList, xs => xs = []
  | .headList, xs => ∃ e, Production.isElement e = true ∧ xs = [e]
  | .fullList, xs => ∃ e, Production.isElement e = true ∧ xs = [e, .nonterminal .arguments]
  | _, _ => False

theorem inside_of_spells {p : Production} {row : List Symbol} (list : p.result = .list)
    (h : p.spells row = true) :
    ∃ xs, row = .token .opening :: (xs ++ [.token .closing]) ∧ inside p xs := by
  unfold Production.spells at h
  split at h
  · cases list
  · cases list
  · cases list
  · cases list
  · exact ⟨[], rfl, rfl⟩
  · exact ⟨_, rfl, _, h, rfl⟩
  · exact ⟨_, rfl, _, h, rfl⟩
  · cases list
  · cases list
  · cases list
  · cases h

theorem exists_isRow_inside {p : Production} {mid : List Tree} (known : ∀ t ∈ mid, t.Reads)
    (h : inside p (counted mid)) :
    (∃ items, IsRow p.fields 1 (some .head) (some .argument) mid items) ∧
      FieldEntry.own? p.fields 0 = none ∧
      FieldEntry.own? p.fields (1 + (counted mid).length) = none := by
  cases p with
  | emptyList =>
      have none : counted mid = [] := h
      exact ⟨exists_isRow_extras known none, rfl, rfl⟩
  | headList =>
      obtain ⟨e, element, head⟩ := h
      refine ⟨?_, rfl, by rw [head]; rfl⟩
      apply exists_isRow_element known head element rfl
      intro after known' none
      exact exists_isRow_extras known' none
  | fullList =>
      obtain ⟨e, element, both⟩ := h
      refine ⟨?_, rfl, by rw [both]; rfl⟩
      apply exists_isRow_element known both element rfl
      intro after known' chain
      apply exists_isRow_chain known' chain (fun t ht => (known' t ht).arguments) rfl
      intro after' known'' none
      exact exists_isRow_extras known'' none
  | _ => exact absurd h id

theorem IsRow.isChain {p : Production} {field : Option Field} {span : Span} {row : List Tree}
    {items : List Item} (hidden : (Label.production p).symbol.visible = false)
    (h : IsRow p.fields 0 field field row items) :
    IsChain field (.node (.production p) span row) items := by
  refine ⟨?_, fun depth => ?_⟩
  · rw [Tree.leaves, h.leaves]
  · rw [Tree.shown, if_neg (by simp [hidden])]
    exact h.shown depth

section Chains

variable {p : Production} {row : List Tree} (known : ∀ t ∈ row, t.Reads)
include known

theorem exists_isChain_first {field : Option Field} (span : Span)
    (hidden : (Label.production p).symbol.visible = false)
    (first : ∃ e, Production.isElement e = true ∧ counted row = [e])
    (own : FieldEntry.own? p.fields 0 = field) :
    ∃ items, IsChain field (.node (.production p) span row) items := by
  obtain ⟨e, element, one⟩ := first
  have read : ∃ items, IsRow p.fields 0 field field row items := by
    apply exists_isRow_element known one element own
    intro after known' none
    exact exists_isRow_extras known' none
  obtain ⟨items, read⟩ := read
  exact ⟨items, read.isChain hidden⟩

theorem exists_isChain_next {field : Option Field} (span : Span)
    (hidden : (Label.production p).symbol.visible = false) {chain : Symbol}
    (next : ∃ e, Production.isElement e = true ∧ counted row = [chain, e])
    (inner : ∀ t ∈ row, t.symbol = chain → ∃ items, t.IsChain field items)
    (own : FieldEntry.own? p.fields 0 = none) (own' : FieldEntry.own? p.fields 1 = field) :
    ∃ items, IsChain field (.node (.production p) span row) items := by
  obtain ⟨e, element, both⟩ := next
  have read : ∃ items, IsRow p.fields 0 field field row items := by
    apply exists_isRow_chain known both inner own
    intro after known' one
    apply exists_isRow_element known' one element own'
    intro after' known'' none
    exact exists_isRow_extras known'' none
  obtain ⟨items, read⟩ := read
  exact ⟨items, read.isChain hidden⟩

end Chains

theorem spells_first {p : Production} (hp : p = .firstExpression ∨ p = .firstArgument)
    {row : List Symbol} (h : p.spells row = true) :
    ∃ e, Production.isElement e = true ∧ row = [e] := by
  unfold Production.spells at h
  split at h <;> first | exact ⟨_, h, rfl⟩ | simp at hp h

theorem spells_next {p : Production} {n : Nonterminal}
    (hp : p = .nextExpression ∧ n = .expressions ∨ p = .nextArgument ∧ n = .arguments)
    {row : List Symbol} (h : p.spells row = true) :
    ∃ e, Production.isElement e = true ∧ row = [.nonterminal n, e] := by
  unfold Production.spells at h
  split at h
  case h_4 =>
    obtain ⟨-, rfl⟩ | ⟨other, -⟩ := hp
    · exact ⟨_, h, rfl⟩
    · cases other
  case h_9 =>
    obtain ⟨other, -⟩ | ⟨-, rfl⟩ := hp
    · cases other
    · exact ⟨_, h, rfl⟩
  all_goals simp at hp h

theorem spells_atom {row : List Symbol} (h : Production.atom.spells row = true) :
    ∃ k, row = [.token (.atom k)] := by
  unfold Production.spells at h
  split at h <;> first | exact ⟨_, rfl⟩ | simp_all

theorem isElement_result {p : Production}
    (h : Production.isElement (.nonterminal p.result) = true) : p.result = .list ∨ p = .atom := by
  cases p <;> first | exact .inl rfl | exact .inr rfl | cases h

/-- Every part of a tree without errors reads as the items in it. -/
theorem Formed.reads {t : Tree} (formed : t.Formed) (clean : t.Clean) : t.Reads := by
  induction clean with
  | @leaf token lexable =>
      have no (n : Nonterminal) : (Tree.ofToken token).symbol ≠ .nonterminal n :=
        Completion.symbol_leaf_ne token false
      refine ⟨formed, .leaf lexable, ?_, fun h => absurd h (no _), fun h => absurd h (no _)⟩
      intro element
      unfold Production.isElement at element
      split at element
      · next h => exact absurd h (no _)
      · next h => exact absurd h (no _)
      · cases element
  | @node p span row clean ih =>
      cases formed with
      | node q admits place parts formed =>
          have known : ∀ t ∈ row, t.Reads := fun t ht => ih t ht (formed t ht)
          obtain ⟨spelt, tight⟩ := admits
          refine ⟨.node q ⟨spelt, tight⟩ place parts formed, .node clean, ?_, ?_, ?_⟩
          · intro element
            rw [place]
            rcases isElement_result element with list | rfl
            · obtain ⟨xs, split, within⟩ := inside_of_spells list spelt
              obtain ⟨t, mid, u, rfl, opening, closing, inner⟩ := tight.ends split
              obtain ⟨o, rfl⟩ := (clean t (by simp)).eq_ofToken opening
              obtain ⟨c, rfl⟩ := (clean u (by simp)).eq_ofToken closing
              obtain ⟨⟨items, read⟩, first, last⟩ :=
                exists_isRow_inside (fun v hv => known v (by simp [hv])) (inner ▸ within)
              exact ⟨.list o items c, rfl, isItem_list list read first last⟩
            · obtain ⟨k, atom⟩ := spells_atom spelt
              obtain ⟨t, rfl, symbol⟩ := tight.singleton atom
              obtain ⟨s, rfl⟩ := (clean t List.mem_cons_self).eq_ofToken symbol
              exact ⟨.atom k s, rfl, isItem_atom⟩
          · intro expressions
            have result : p.result = .expressions := Symbol.nonterminal.inj expressions
            cases p <;> cases result
            · exact exists_isChain_first known span rfl (spells_first (.inl rfl) spelt) rfl
            · exact exists_isChain_next known span rfl (spells_next (.inl ⟨rfl, rfl⟩) spelt)
                (fun t ht => (known t ht).expressions) rfl rfl
          · intro arguments
            have result : p.result = .arguments := Symbol.nonterminal.inj arguments
            cases p <;> cases result
            · exact exists_isChain_first known span rfl (spells_first (.inr rfl) spelt) rfl
            · exact exists_isChain_next known span rfl (spells_next (.inr ⟨rfl, rfl⟩) spelt)
                (fun t ht => (known t ht).arguments) rfl rfl

/-- A whole tree without errors shows a file with a forest of items in it, which begins at the first
token. -/
theorem Whole.exists_items {ending : Token} {held : List Tree} {t : Tree}
    (h : t.Whole ending held) (he : ending.kind = .ending) (clean : t.Clean) :
    ∃ items, held = (Item.tokensRow items).map .ofToken ∧
      t.preorder.map Cursor.shown =
        ⟨0, none, .nonterminal .sourceFile, false,
          ⟨((Item.tokensRow items).head?.getD ending).span.start, ending.span.stop⟩⟩ ::
          Item.shownRow 1 none none items := by
  obtain ⟨label, row, split, parts, leaves, rfl | ⟨rfl, spelt⟩⟩ := id h
  · rw [split] at clean
    cases clean
  · have cleanRow : ∀ u ∈ row, u.Clean := by
      intro u hu
      apply clean.children
      rw [split]
      exact List.mem_append_left _ hu
    have known : ∀ u ∈ row, u.Reads := fun u hu => (parts u hu).1.reads (cleanRow u hu)
    have read : ∃ items, IsRow [] 0 none none row items := by
      rcases spelt with none | one
      · exact exists_isRow_extras known none
      · apply exists_isRow_chain known one (fun u hu => (known u hu).expressions) rfl
        intro after known' none
        exact exists_isRow_extras known' none
    obtain ⟨items, read⟩ := read
    have span : t.span =
        ⟨((Item.tokensRow items).head?.getD ending).span.start, ending.span.stop⟩ := by
      obtain ⟨first, last, head, tail, span⟩ := h.extent
      have all : t.leaves = (Item.tokensRow items).map .ofToken ++ [ofToken ending] := by
        rw [h.leaves, ← leaves, read.leaves]
      rw [all] at head tail
      rw [span]
      congr 1
      · cases tokens : Item.tokensRow items with
        | nil =>
            rw [tokens] at head
            obtain rfl := Option.some.inj head
            rfl
        | cons token more =>
            rw [tokens] at head
            obtain rfl := Option.some.inj head
            rfl
      · rw [List.getLast?_append] at tail
        obtain rfl := Option.some.inj tail
        rfl
    refine ⟨items, by rw [← leaves, read.leaves], ?_⟩
    have hidden (depth : Nat) : (ofToken ending).shown depth none = [] := by
      rw [ofToken, Tree.shown, he]
      rfl
    have last : (ofToken ending).isExtra = true := by
      simp [ofToken, isExtra, he]
    have children : shownRow 1 [] none 0 (row ++ [ofToken ending]) =
        Item.shownRow 1 none none items := by
      rw [shownRow_append, read.shown, shownRow, if_pos last, hidden, shownRow, List.append_nil,
        List.append_nil]
    rw [map_shown_preorder, span, ← children, split]
    rfl

end Tree

end MettaSyntax
