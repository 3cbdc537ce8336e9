import MettaSyntax.Proofs.Forest
import MettaSyntax.Proofs.Strings

/-! # Parsing undoes printing

A layout is a forest of expressions as it is written down: its atoms with their texts, its lists, the
comments among them, and the blank space before each part and before each closing parenthesis.
The tokens of a layout are those of its items, and only one forest of items has these tokens, so
the tree of the text shows the items of the layout and nothing else. -/

set_option autoImplicit false

namespace MettaSyntax

/-- A part of a text, with the blank space before it. -/
inductive Piece where
  | atom (blank : List Char) (kind : AtomKind) (text : List Char)
  | comment (blank : List Char) (text : List Char)
  /-- A list of pieces, with the blank space before its closing parenthesis. -/
  | list (blank : List Char) (pieces : List Piece) (inner : List Char)

def IsAtom : AtomKind → List Char → Prop
  | .string, text => ∃ body, text = '"' :: body ∧ Lexeme.stringBody? body = some (body, [])
  | kind, text =>
      text ≠ [] ∧ (∀ c ∈ text, isDelimiter c = false) ∧ Lexeme.wordKind text = kind

def IsComment (text : List Char) : Prop :=
  ∃ body, text = ';' :: body ∧ ∀ c ∈ body, c ≠ '\n'

def IsSpace (text : List Char) : Prop :=
  ∀ c ∈ text, isSpace c = true

namespace Piece

mutual

def text : Piece → List Char
  | .atom blank _ text => blank ++ text
  | .comment blank text => blank ++ text
  | .list blank pieces inner => blank ++ '(' :: (textRow pieces ++ (inner ++ [')']))

def textRow : List Piece → List Char
  | [] => []
  | piece :: row => text piece ++ textRow row

end

mutual

/-- Whether a piece is well laid out before the rest of a text: a word must not run on into what
follows it, and a comment runs to the end of its line. -/
def Valid : Piece → List Char → Prop
  | .atom blank kind text, rest =>
      IsSpace blank ∧ IsAtom kind text ∧
        (kind = .string ∨ ∀ c ∈ rest.head?, isDelimiter c = true)
  | .comment blank text, rest =>
      IsSpace blank ∧ IsComment text ∧ ∀ c ∈ rest.head?, c = '\n'
  | .list blank pieces inner, rest =>
      IsSpace blank ∧ IsSpace inner ∧ ValidRow pieces (inner ++ ')' :: rest)

def ValidRow : List Piece → List Char → Prop
  | [], _ => True
  | piece :: row, rest => Valid piece (textRow row ++ rest) ∧ ValidRow row rest

end

mutual

/-- The item that a piece stands for when it begins at a position. -/
def item (p : Position) : Piece → Item
  | .atom blank kind text => .atom kind ⟨p.after blank, (p.after blank).after text⟩
  | .comment blank text => .comment ⟨p.after blank, (p.after blank).after text⟩
  | .list blank pieces inner =>
      let start := p.after blank
      let stop := (start.next '(').after (textRow pieces ++ inner)
      .list ⟨start, start.next '('⟩ (items (start.next '(') pieces) ⟨stop, stop.next ')'⟩

def items (p : Position) : List Piece → List Item
  | [] => []
  | piece :: row => item p piece :: items (p.after piece.text) row

end

end Piece

/-- A text laid out as pieces, with the blank space at its end. -/
structure Layout where
  pieces : List Piece
  blank : List Char

namespace Layout

def text (l : Layout) : List Char :=
  Piece.textRow l.pieces ++ l.blank

def Valid (l : Layout) : Prop :=
  Piece.ValidRow l.pieces l.blank ∧ IsSpace l.blank

def items (l : Layout) : List Item :=
  Piece.items .origin l.pieces

/-- What a reader is to be told about a layout: a file, which runs from the first token to the end of
the text, and in it the items. -/
def shown (l : Layout) : List Shown :=
  ⟨0, none, .nonterminal .sourceFile, false,
    ⟨((Item.tokensRow l.items).head?.getD (Lexer.endToken l.text)).span.start,
      Lexer.textEnd l.text⟩⟩ ::
    Item.shownRow 1 none none l.items

end Layout

/-! ## The tokens of a layout -/

namespace Lexeme

theorem scan?_of_not_delimiter {c : Char} {cs : List Char} (h : isDelimiter c = false) :
    scan? (c :: cs) = word? (c :: cs) := by
  unfold scan?
  split
  all_goals simp_all [isDelimiter]

theorem scan?_word {text rest : List Char} (ne : text ≠ [])
    (inside : ∀ c ∈ text, isDelimiter c = false) (stop : ∀ c ∈ rest.head?, isDelimiter c = true) :
    scan? (text ++ rest) = some ⟨.atom (wordKind text), text, rest⟩ := by
  obtain ⟨c, cs, rfl⟩ := List.exists_cons_of_ne_nil ne
  have cut : (c :: cs ++ rest).takeWhile (!isDelimiter ·) = c :: cs ∧
      (c :: cs ++ rest).dropWhile (!isDelimiter ·) = rest :=
    (run_iff _ _ _ _).2 ⟨rfl, fun a ha => by simp [inside a ha], fun a ha => by simp [stop a ha]⟩
  rw [List.cons_append, scan?_of_not_delimiter (inside c List.mem_cons_self), word?,
    ← List.cons_append, cut.1, cut.2]

theorem scan?_atom {kind : AtomKind} {text rest : List Char} (h : IsAtom kind text)
    (stop : kind = .string ∨ ∀ c ∈ rest.head?, isDelimiter c = true) :
    scan? (text ++ rest) = some ⟨.atom kind, text, rest⟩ := by
  have word (h : text ≠ [] ∧ (∀ c ∈ text, isDelimiter c = false) ∧ wordKind text = kind)
      (plain : kind ≠ .string) : scan? (text ++ rest) = some ⟨.atom kind, text, rest⟩ := by
    obtain ⟨ne, inside, same⟩ := h
    rw [scan?_word ne inside (stop.resolve_left plain), same]
  cases kind with
  | string =>
      obtain ⟨body, rfl, closed⟩ := h
      rw [List.cons_append, scan?, stringBody?_extend closed rest]
      rfl
  | symbol => exact word h (by simp)
  | «variable» => exact word h (by simp)
  | number => exact word h (by simp)

theorem scan?_comment {text rest : List Char} (h : IsComment text)
    (stop : ∀ c ∈ rest.head?, c = '\n') :
    scan? (text ++ rest) = some ⟨.comment, text, rest⟩ := by
  obtain ⟨body, rfl, inside⟩ := h
  have cut : (body ++ rest).takeWhile (· ≠ '\n') = body ∧
      (body ++ rest).dropWhile (· ≠ '\n') = rest :=
    (run_iff _ _ _ _).2 ⟨rfl, fun a ha => by simp [inside a ha], fun a ha => by simp [stop a ha]⟩
  rw [List.cons_append, scan?, cut.1, cut.2]

theorem isSpace_head_of_atom {kind : AtomKind} {text rest : List Char} (h : IsAtom kind text) :
    ∀ c ∈ (text ++ rest).head?, isSpace c = false := by
  have word (h : text ≠ [] ∧ (∀ c ∈ text, isDelimiter c = false) ∧ wordKind text = kind) :
      ∀ c ∈ (text ++ rest).head?, isSpace c = false := by
    obtain ⟨ne, inside, -⟩ := h
    obtain ⟨d, ds, rfl⟩ := List.exists_cons_of_ne_nil ne
    rintro c ⟨rfl⟩
    have solid := inside d List.mem_cons_self
    simp only [isDelimiter, Bool.or_eq_false_iff] at solid
    exact solid.2
  cases kind with
  | string =>
      obtain ⟨body, rfl, -⟩ := h
      rintro c ⟨rfl⟩
      rfl
  | symbol => exact word h
  | «variable» => exact word h
  | number => exact word h

end Lexeme

namespace Lexer

theorem tokensFrom_scan {blank cs : List Char} {l : Lexeme} (p : Position) (space : IsSpace blank)
    (solid : ∀ c ∈ cs.head?, isSpace c = false) (h : Lexeme.scan? cs = some l)
    (inside : l.kind ≠ .ending) :
    tokensFrom p (blank ++ cs) =
      ⟨l.kind, ⟨p.after blank, (p.after blank).after l.text⟩⟩ ::
        tokensFrom ((p.after blank).after l.text) l.rest := by
  obtain ⟨taken, dropped⟩ := (run_iff _ _ _ _).2 ⟨rfl, space, solid⟩
  rw [tokensFrom_of_some p (by rw [dropped, h]) inside, taken]

end Lexer

namespace Piece

mutual

theorem tokensFrom_text (piece : Piece) (p : Position) (rest : List Char)
    (h : piece.Valid rest) :
    Lexer.tokensFrom p (piece.text ++ rest) =
      (piece.item p).tokens ++ Lexer.tokensFrom (p.after piece.text) rest := by
  match piece with
  | .atom blank kind text =>
      rw [Valid] at h
      obtain ⟨space, atom, stop⟩ := h
      have scanned : Lexeme.scan? (text ++ rest) = some ⟨.atom kind, text, rest⟩ :=
        Lexeme.scan?_atom atom stop
      rw [Piece.text, Piece.item, Item.tokens, List.append_assoc,
        Lexer.tokensFrom_scan p space (Lexeme.isSpace_head_of_atom atom) scanned (by simp),
        Position.after_append]
      rfl
  | .comment blank text =>
      rw [Valid] at h
      obtain ⟨space, comment, stop⟩ := h
      have scanned := Lexeme.scan?_comment comment stop
      have solid : ∀ c ∈ (text ++ rest).head?, isSpace c = false := by
        obtain ⟨body, rfl, -⟩ := comment
        rintro c ⟨rfl⟩
        rfl
      rw [Piece.text, Piece.item, Item.tokens, List.append_assoc,
        Lexer.tokensFrom_scan p space solid scanned (by simp), Position.after_append]
      rfl
  | .list blank pieces inner =>
      rw [Valid] at h
      obtain ⟨space, space', row⟩ := h
      have solid (c : Char) (cs : List Char) (hc : isSpace c = false) :
          ∀ d ∈ (c :: cs).head?, isSpace d = false := by
        rintro d ⟨rfl⟩
        exact hc
      have opening := Lexer.tokensFrom_scan (l := ⟨.opening, ['('], _⟩) p space
        (solid '(' (textRow pieces ++ (inner ++ ')' :: rest)) rfl) rfl (by simp)
      have closing := Lexer.tokensFrom_scan (l := ⟨.closing, [')'], rest⟩)
        (((p.after blank).next '(').after (textRow pieces)) space' (solid ')' rest rfl) rfl (by simp)
      have between := tokensFrom_row pieces ((p.after blank).next '(') _ row
      have split : (Piece.list blank pieces inner).text ++ rest =
          blank ++ '(' :: (textRow pieces ++ (inner ++ ')' :: rest)) := by
        simp [Piece.text]
      have stop : p.after (Piece.list blank pieces inner).text =
          ((((p.after blank).next '(').after (textRow pieces)).after inner).next ')' := by
        rw [Piece.text, Position.after_append, Position.after_cons, Position.after_append,
          Position.after_append]
        rfl
      rw [split, opening, Position.after_cons, Position.after_nil, between, closing, stop,
        Piece.item, Item.tokens, Position.after_append]
      simp

theorem tokensFrom_row (row : List Piece) (p : Position) (rest : List Char)
    (h : ValidRow row rest) :
    Lexer.tokensFrom p (textRow row ++ rest) =
      Item.tokensRow (items p row) ++ Lexer.tokensFrom (p.after (textRow row)) rest := by
  match row with
  | [] =>
      rw [textRow, items]
      rfl
  | piece :: row =>
      rw [ValidRow] at h
      have first := tokensFrom_text piece p (textRow row ++ rest) h.1
      have later := tokensFrom_row row (p.after piece.text) rest h.2
      rw [textRow, items, List.append_assoc, first, later, Item.tokensRow_cons,
        Position.after_append, List.append_assoc]

end

end Piece

theorem Layout.tokens_text {l : Layout} (valid : l.Valid)
    (unmarked : l.text.head? ≠ some Lexer.byteOrderMark) :
    Lexer.tokens l.text = Item.tokensRow l.items := by
  have mark : Lexer.mark l.text = [] := by
    rcases Lexer.mark_eq l.text with none | bom
    · exact none
    · have split := Lexer.mark_append_body l.text
      rw [bom] at split
      rw [← split] at unmarked
      exact absurd rfl unmarked
  have body : Lexer.body l.text = l.text := by
    have split := Lexer.mark_append_body l.text
    rwa [mark, List.nil_append] at split
  have blank : l.blank.dropWhile isSpace = [] := by
    rw [List.dropWhile_eq_nil_iff]
    exact valid.2
  rw [Lexer.tokens_eq, mark, body, Layout.text, Piece.tokensFrom_row _ _ _ valid.1,
    Lexer.tokensFrom_of_blank _ blank, List.append_nil]
  rfl

/-! ## Items are balanced -/

namespace Item

mutual

theorem nesting?_tokens (i : Item) (d : Nat) :
    nesting? d ((i.tokens.map Token.kind).map TokenKind.toSymbol) = some d := by
  match i with
  | .atom kind span => rw [tokens]; rfl
  | .comment span => rw [tokens]; rfl
  | .list opening items closing =>
      have inner := nesting?_tokensRow items (d + 1)
      have opens : (TokenKind.toSymbol .opening).level? d = some (d + 1) := rfl
      rw [tokens, List.map_cons, List.map_cons, nesting?_cons, opens, Option.bind_some,
        List.map_append, List.map_append, nesting?_append, inner]
      rfl

theorem nesting?_tokensRow (row : List Item) (d : Nat) :
    nesting? d (((tokensRow row).map Token.kind).map TokenKind.toSymbol) = some d := by
  match row with
  | [] => rfl
  | i :: row =>
      rw [tokensRow_cons, List.map_append, List.map_append, nesting?_append, nesting?_tokens i d,
        Option.bind_some, nesting?_tokensRow row d]

end

mutual

theorem lexable_tokens (i : Item) : ∀ t ∈ i.tokens, t.kind ≠ .unlexable := by
  match i with
  | .atom kind span => simp [tokens]
  | .comment span => simp [tokens]
  | .list opening items closing =>
      have inner := lexable_tokensRow items
      intro t ht
      rw [tokens] at ht
      simp only [List.mem_cons, List.mem_append, List.not_mem_nil, or_false] at ht
      rcases ht with rfl | ht | rfl
      · simp
      · exact inner t ht
      · simp

theorem lexable_tokensRow (row : List Item) : ∀ t ∈ tokensRow row, t.kind ≠ .unlexable := by
  match row with
  | [] => simp
  | i :: row =>
      intro t ht
      rw [tokensRow_cons] at ht
      rcases List.mem_append.1 ht with ht | ht
      · exact lexable_tokens i t ht
      · exact lexable_tokensRow row t ht

end

end Item

/-- The tree of a layout has no errors. -/
theorem Layout.clean {l : Layout} (valid : l.Valid) (unmarked : l.text.head? ≠ some Lexer.byteOrderMark) :
    (parse l.text).Clean := by
  have tokens := Layout.tokens_text valid unmarked
  refine (parse_clean_iff l.text).2 ⟨?_, ?_⟩
  · rw [tokens]
    intro mem
    obtain ⟨t, ht, unlexable⟩ := List.mem_map.1 mem
    exact Item.lexable_tokensRow l.items t ht unlexable
  · rw [tokens]
    exact Item.nesting?_tokensRow l.items 0

/-- Parsing undoes printing: the tree of a text that is laid out as a forest shows that forest and
nothing else, unless the text begins with a byte order mark, which is never part of a token. -/
theorem parse_layout (l : Layout) (valid : l.Valid)
    (unmarked : l.text.head? ≠ some Lexer.byteOrderMark) :
    (parse l.text).preorder.map Cursor.shown = l.shown := by
  have tokens := Layout.tokens_text valid unmarked
  have clean := Layout.clean valid unmarked
  obtain ⟨items, held, told⟩ := (parse_whole clean).exists_items rfl clean
  have injective : Function.Injective Tree.ofToken := by
    intro t u same
    cases same
    rfl
  -- the items of the tree and those of the layout have the same tokens
  have same : Item.tokensRow items = Item.tokensRow l.items := by
    rw [← tokens]
    exact (injective.list_map held).symm
  have stops : Item.Stops [] := by
    intro t ht
    cases ht
  obtain ⟨rfl, -⟩ := Item.tokensRow_unique items l.items stops stops (by rw [same])
  rw [told]
  rfl

/-- The list of a symbol and a string, with comments and a list without elements around them. -/
def sampleLayout : Layout :=
  ⟨[.comment [' '] [';'],
    .list ['\n'] [.atom [] .symbol ['a'], .comment [] [';'], .atom ['\n'] .string ['"', '"'],
      .list [] [] []] []], [' ']⟩

theorem parse_sampleLayout :
    sampleLayout.Valid ∧ sampleLayout.text.head? ≠ some Lexer.byteOrderMark ∧
      (parse sampleLayout.text).preorder.map Cursor.shown = sampleLayout.shown := by
  have valid : sampleLayout.Valid := by
    refine ⟨?_, by simp [sampleLayout, IsSpace, isSpace]⟩
    simp [sampleLayout, Piece.ValidRow, Piece.Valid, Piece.textRow, Piece.text, IsSpace, isSpace,
      IsAtom, IsComment, Lexeme.stringBody?, isDelimiter]
    decide
  have unmarked : sampleLayout.text.head? ≠ some Lexer.byteOrderMark := by decide
  exact ⟨valid, unmarked, parse_layout sampleLayout valid unmarked⟩

/-- The symbol that consists of a byte order mark, at the head of a text. -/
def markLayout : Layout :=
  ⟨[.atom [] .symbol [Lexer.byteOrderMark]], []⟩

/-- A byte order mark at the head of a text is passed over, although it could stand in a symbol. -/
theorem parse_markLayout :
    markLayout.Valid ∧
      (parse markLayout.text).preorder.map Cursor.shown ≠ markLayout.shown := by
  constructor
  · have word : isDelimiter Lexer.byteOrderMark = false := rfl
    refine ⟨?_, by simp [markLayout, IsSpace]⟩
    simp only [markLayout, Piece.ValidRow, Piece.Valid]
    refine ⟨⟨by simp [IsSpace], ⟨by simp, ?_, rfl⟩, by simp [Piece.textRow]⟩, trivial⟩
    simpa using word
  · have tokens : Lexer.tokens markLayout.text = [] := by
      rw [Lexer.tokens_eq]
      exact Lexer.tokensFrom_of_blank _ rfl
    have tree : parse markLayout.text =
        .ofChildren (.production .file) .origin [.ofToken (Lexer.endToken markLayout.text)] := by
      rw [parse, parse?, tokens]
      rfl
    intro same
    rw [tree, Tree.map_shown_preorder] at same
    exact absurd (congrArg List.length same) (by decide)

end MettaSyntax
