import Mathlib.Data.List.Pairwise
import MettaSyntax.Proofs.Encoding
import MettaSyntax.Proofs.Lossless
import MettaSyntax.Proofs.Matches
import MettaSyntax.Proofs.Placement

/-! # Semantic tokens cover a text

What the query captures in the tree of a text are tokens of the text, and it captures every token that
can be read.  A token on one row becomes a highlight as long as the token, so the highlights that are
kept, one at each place, are those of the tokens in order. -/

set_option autoImplicit false

namespace MettaSyntax

namespace Tree

theorem symbol_ofToken {token : Token} (h : token.kind ≠ .unlexable) :
    (ofToken token).symbol = .token token.kind := by
  obtain ⟨kind, span⟩ := token
  cases kind with
  | unlexable => exact absurd rfl h
  | _ => rfl

section Roots

variable {ending : Token} {held : List Tree} {t u : Tree}

/-- The tokens below the root are its leaves. -/
theorem Whole.mem_held (h : t.Whole ending held) (he : ending.kind = .ending)
    (hu : u ∈ nodesRow t.children) {kind : TokenKind} (symbol : u.symbol = .token kind)
    (inside : kind ≠ .ending) : u ∈ held := by
  rcases h.of_mem_nodes hu with rfl | ⟨formed, -, within⟩
  · have same : ending.kind = kind := by
      have lexable : ending.kind ≠ .unlexable := by
        rw [he]
        decide
      rw [symbol_ofToken lexable] at symbol
      exact Symbol.token.inj symbol
    exact absurd (same.symm.trans he) inside
  · cases formed with
    | leaf => exact within.subset List.mem_cons_self
    | @node label span row p admits place parts formed => cases label <;> cases symbol

theorem Whole.mem_nodes (h : t.Whole ending held) (he : ending.kind = .ending) (hu : u ∈ held) :
    u ∈ nodesRow t.children := by
  rw [← h.childless he] at hu
  exact (List.mem_filter.1 (List.mem_filter.1 hu).1).1

end Roots

/-- The tokens of a text are nodes of its tree. -/
theorem ofToken_mem_nodesRow {text : List Char} {t : Token} (ht : t ∈ Lexer.tokens text) :
    ofToken t ∈ nodesRow (parse text).children := by
  obtain ⟨n, whole⟩ := parse_repaired text
  exact whole.mem_nodes rfl (List.mem_append_left _ (List.mem_map_of_mem ht))

theorem ofToken_mem_nodes {text : List Char} {t : Token} (ht : t ∈ Lexer.tokens text) :
    ofToken t ∈ (parse text).nodes := by
  rw [nodes_eq]
  exact List.mem_cons_of_mem _ (ofToken_mem_nodesRow ht)

end Tree

namespace Stretch

def Before (a b : Stretch) : Prop :=
  a.row < b.row ∨ a.row = b.row ∧ a.column < b.column

theorem Precedes.before {a b : Stretch} (h : a.Precedes b) (pos : 0 < a.length) : a.Before b := by
  unfold Precedes at h
  unfold Before
  omega

end Stretch

/-- A span as it looks on the row on which it begins. -/
def Span.stretch (s : Span) : Stretch :=
  ⟨s.start.row, s.start.column, s.bytes⟩

namespace Token

/-- A token that can be read and lies on one row. -/
def onOneRow (t : Token) : Bool :=
  t.kind ≠ .unlexable && t.span.start.row = t.span.stop.row

theorem onOneRow_iff (t : Token) :
    t.onOneRow = true ↔ t.kind ≠ .unlexable ∧ t.span.start.row = t.span.stop.row := by
  simp [onOneRow]

end Token

namespace Lexer

/-- The tokens of a text that lie on one row, as stretches. -/
def stretches (text : List Char) : List Stretch :=
  ((tokens text).filter Token.onOneRow).map (·.span.stretch)

variable (text : List Char)

theorem mem_stretches {s : Stretch} :
    s ∈ stretches text ↔ ∃ t ∈ tokens text, t.onOneRow = true ∧ t.span.stretch = s := by
  simp [stretches, and_assoc]

theorem tokens_pos {t : Token} (ht : t ∈ tokens text) (row : t.onOneRow = true) :
    0 < t.span.bytes :=
  ((tokens_placed text t ht).column ((Token.onOneRow_iff t).1 row).2).1

theorem tokens_precede :
    ((tokens text).filter Token.onOneRow).Pairwise fun t u =>
      t.span.stretch.Precedes u.span.stretch := by
  refine ((tokens_tiles text).ascend.2.filter Token.onOneRow).imp_of_mem fun {t u} ht _ follows => ?_
  obtain ⟨mem, row⟩ := List.mem_filter.1 ht
  obtain ⟨gap, start⟩ := follows
  have level := ((Token.onOneRow_iff t).1 row).2
  have width := ((tokens_placed text t mem).column level).2
  have below := t.span.stop.row_le_after gap
  show t.span.start.row < u.span.start.row ∨
    t.span.start.row = u.span.start.row ∧ t.span.start.column + t.span.bytes ≤ u.span.start.column
  rw [start, level]
  rcases Nat.lt_or_eq_of_le below with lower | same
  · exact .inl lower
  · rw [Position.column_after same.symm, width]
    exact .inr ⟨same, Nat.le_add_right _ _⟩

/-- There is one token at each place. -/
theorem tokens_unique {t u : Token} (ht : t ∈ tokens text) (rowT : t.onOneRow = true)
    (hu : u ∈ tokens text) (rowU : u.onOneRow = true) :
    t.span.start.row = u.span.start.row → t.span.start.column = u.span.start.column → t = u := by
  let Same (t u : Token) : Prop :=
    t.span.start.row = u.span.start.row → t.span.start.column = u.span.start.column → t = u
  have symmetric : Std.Symm Same := ⟨fun t u h row column => (h row.symm column.symm).symm⟩
  have apart : ((tokens text).filter Token.onOneRow).Pairwise Same := by
    refine (tokens_precede text).imp_of_mem fun {t u} ht _ precedes row column => ?_
    obtain ⟨mem, level⟩ := List.mem_filter.1 ht
    rcases precedes.before (tokens_pos text mem level) with above | ⟨-, left⟩
    · exact absurd row (Nat.ne_of_lt above)
    · exact absurd column (Nat.ne_of_lt left)
  exact apart.forall_of_forall (fun t _ _ _ => rfl) (List.mem_filter.2 ⟨ht, rowT⟩)
    (List.mem_filter.2 ⟨hu, rowU⟩)

theorem stretches_pos : ∀ s ∈ stretches text, 0 < s.length := by
  intro s mem
  obtain ⟨t, ht, row, rfl⟩ := (mem_stretches text).1 mem
  exact tokens_pos text ht row

theorem stretches_unique {a b : Stretch} (ha : a ∈ stretches text) (hb : b ∈ stretches text)
    (row : a.row = b.row) (column : a.column = b.column) : a = b := by
  obtain ⟨t, ht, rowT, rfl⟩ := (mem_stretches text).1 ha
  obtain ⟨u, hu, rowU, rfl⟩ := (mem_stretches text).1 hb
  rw [tokens_unique text ht rowT hu rowU row column]

theorem stretches_precede : (stretches text).Pairwise Stretch.Precedes :=
  List.pairwise_map.2 (tokens_precede text)

end Lexer

namespace HighlightSpan

variable {text : List Char}

theorem of?_eq_some_iff {capture : Capture} {h : HighlightSpan} :
    of? capture = some h ↔ ∃ type, SemanticToken.typeOf? capture.1 = some type ∧
      capture.2.span.start.row = capture.2.span.stop.row ∧
      capture.2.span.start.column < capture.2.span.stop.column ∧
      h = ⟨capture.2.span.start, capture.2.span.stop.column - capture.2.span.start.column,
        Highlight.captureIndex capture.1, type⟩ := by
  unfold of?
  simp only [Option.bind_eq_bind, Option.bind_eq_some_iff]
  refine exists_congr fun type => and_congr_right fun _ => ?_
  split
  · next fits => simp [fits, eq_comm]
  · next misfit =>
      simp only [reduceCtorEq, false_iff]
      rintro ⟨row, column, -⟩
      exact misfit ⟨row, column⟩

/-- A highlight is that of a capture of a token. -/
theorem capture_of_mem_all {h : HighlightSpan} (mem : h ∈ all text (parse text)) :
    ∃ t ∈ Lexer.tokens text, t.onOneRow = true ∧ ∃ name,
      (name, Tree.ofToken t) ∈ Highlight.captures text (parse text) ∧
        of? (name, Tree.ofToken t) = some h := by
  obtain ⟨n, whole⟩ := parse_repaired text
  obtain ⟨⟨name, u⟩, captured, some⟩ := mem_all.1 mem
  obtain ⟨type, -, row, column, rfl⟩ := of?_eq_some_iff.1 some
  obtain ⟨below, -, kind, symbol, inside⟩ :=
    Highlight.token_of_mem_captures whole.isVisible captured
  rw [Tree.nodes_eq] at below
  rcases List.mem_cons.1 below with top | below
  · have root := whole.root_symbol
    rw [← top, symbol] at root
    rcases root with file | error
    · cases file
    · cases error
  · rcases List.mem_append.1 (whole.mem_held rfl below symbol inside) with read | missing
    · obtain ⟨t, ht, rfl⟩ := List.mem_map.1 read
      have lexable : t.kind ≠ .unlexable := by
        intro unlexable
        rw [Tree.ofToken, Tree.symbol, unlexable] at symbol
        cases symbol
      exact ⟨t, ht, (Token.onOneRow_iff t).2 ⟨lexable, row⟩, name, captured, some⟩
    · -- what is missing has no width
      obtain rfl : u = _ := List.eq_of_mem_replicate missing
      exact absurd column (Nat.lt_irrefl _)

/-- A highlight is that of a token. -/
theorem token_of_mem_all {h : HighlightSpan} (mem : h ∈ all text (parse text)) :
    ∃ t ∈ Lexer.tokens text, t.onOneRow = true ∧ h.start = t.span.start ∧
      h.length = t.span.bytes := by
  obtain ⟨t, ht, level, name, -, some⟩ := capture_of_mem_all mem
  obtain ⟨type, -, row, -, rfl⟩ := of?_eq_some_iff.1 some
  have width := ((Lexer.tokens_placed text t ht).column row).2
  refine ⟨t, ht, level, rfl, ?_⟩
  show t.span.stop.column - t.span.start.column = t.span.bytes
  rw [width, Nat.add_sub_cancel_left]

theorem stretch_of_mem_all {h : HighlightSpan} (mem : h ∈ all text (parse text)) :
    h.stretch ∈ Lexer.stretches text := by
  obtain ⟨t, ht, row, start, length⟩ := token_of_mem_all mem
  refine (Lexer.mem_stretches text).2 ⟨t, ht, row, ?_⟩
  rw [stretch, start, length]
  rfl

/-- Every token on one row has a highlight. -/
theorem exists_mem_all {s : Stretch} (mem : s ∈ Lexer.stretches text) :
    ∃ h ∈ all text (parse text), h.stretch = s := by
  obtain ⟨n, whole⟩ := parse_repaired text
  obtain ⟨t, ht, onOneRow, rfl⟩ := (Lexer.mem_stretches text).1 mem
  obtain ⟨lexable, level⟩ := (Token.onOneRow_iff t).1 onOneRow
  obtain ⟨name, type, typed, captured⟩ := Highlight.token_captured text whole.isVisible
    (Tree.ofToken_mem_nodes ht) (Tree.symbol_ofToken lexable) (Lexer.tokens_ne_ending text t ht) lexable
  obtain ⟨pos, width⟩ := (Lexer.tokens_placed text t ht).column level
  have column : t.span.start.column < t.span.stop.column := by omega
  refine ⟨_, mem_all.2 ⟨_, captured, of?_eq_some_iff.2 ⟨type, typed, level, column, rfl⟩⟩, ?_⟩
  show (⟨t.span.start.row, t.span.start.column, t.span.stop.column - t.span.start.column⟩ : Stretch) =
    ⟨t.span.start.row, t.span.start.column, t.span.bytes⟩
  rw [width, Nat.add_sub_cancel_left]

theorem stretches_kept :
    (kept none (all text (parse text))).map stretch = Lexer.stretches text := by
  have asymm : ∀ a b : Stretch, a.Before b → ¬ b.Before a := by
    intro a b h
    unfold Stretch.Before at *
    omega
  have ascending : ((kept none (all text (parse text))).map stretch).Pairwise Stretch.Before := by
    refine List.pairwise_map.2 ((kept_ascend _ _).imp fun {a b} before => ?_)
    exact (Position.before_iff _ _).1 before
  have ordered : (Lexer.stretches text).Pairwise Stretch.Before :=
    (Lexer.stretches_precede text).imp_of_mem fun {a _} ha _ h =>
      Stretch.Precedes.before h (Lexer.stretches_pos text a ha)
  refine eq_of_strictly_sorted asymm ascending ordered fun s => ⟨fun mem => ?_, fun mem => ?_⟩
  · obtain ⟨h, hh, rfl⟩ := List.mem_map.1 mem
    exact stretch_of_mem_all ((kept_sublist _ _).subset hh)
  · obtain ⟨h, hh, rfl⟩ := exists_mem_all mem
    obtain ⟨k, hk, ⟨row, column⟩, -⟩ := exists_kept (all_sorted _ _) h hh
    -- at the place of the highlight there is only one token, so the two are equally long
    have here : k.stretch ∈ Lexer.stretches text :=
      stretch_of_mem_all ((kept_sublist _ _).subset hk)
    rw [← Lexer.stretches_unique text here mem row column]
    exact List.mem_map_of_mem hk

end HighlightSpan

/-- The semantic tokens of any text, read back from the five numbers for each, are the tokens of the text
that can be read and lie on one row, each once and in order; they begin one after another, none
reaches into the next, and none is empty.  What the tree shows besides them is missing from the text, or
cannot be read, or is a string over several rows. -/
theorem decode_encode_parse (text : List Char) :
    SemanticToken.decode (SemanticToken.encode text (parse text)) = Lexer.stretches text ∧
      (SemanticToken.encode text (parse text)).length = 5 * (Lexer.stretches text).length ∧
      (Lexer.stretches text).Pairwise (fun a b => a.Before b ∧ a.Precedes b) ∧
      (∀ s ∈ Lexer.stretches text, 0 < s.length) ∧
      ∀ u ∈ ((parse text).preorder.map Cursor.tree).tail, u.isChildless = true →
        u.isMissing = false ∧ u.span.stretch ∈ Lexer.stretches text ∨
        u.symbol = .token .closing ∧ u.isMissing = true ∧ u.span.bytes = 0 ∨
        u.isError = true ∨
        u.symbol = .token (.atom .string) ∧ u.span.start.row < u.span.stop.row := by
  refine ⟨?_, ?_, ?_, Lexer.stretches_pos text, fun u hu bare => ?_⟩
  · rw [SemanticToken.decode_encode, HighlightSpan.stretches_kept]
  · rw [SemanticToken.length_encode, ← HighlightSpan.stretches_kept, List.length_map]
  · exact (Lexer.stretches_precede text).imp_of_mem fun {a _} ha _ precedes =>
      ⟨precedes.before (Lexer.stretches_pos text a ha), precedes⟩
  · obtain ⟨n, whole⟩ := parse_repaired text
    rw [Tree.map_tree_preorder, List.tail_cons] at hu
    have held := List.mem_filter.2 ⟨hu, bare⟩
    rw [whole.childless rfl] at held
    rcases List.mem_append.1 held with read | missing
    · obtain ⟨t, ht, rfl⟩ := List.mem_map.1 read
      by_cases lexable : t.kind = .unlexable
      · refine .inr (.inr (.inl ?_))
        show decide (t.kind.toSymbol = .error) = true
        rw [lexable]
        rfl
      · by_cases level : t.span.start.row = t.span.stop.row
        · refine .inl ⟨rfl, (Lexer.mem_stretches text).2 ⟨t, ht, ?_, rfl⟩⟩
          exact (Token.onOneRow_iff t).2 ⟨lexable, level⟩
        · have placed := Lexer.tokens_placed text t ht
          have string : t.kind = .atom .string :=
            Decidable.byContradiction fun other => level (placed.row other lexable)
          refine .inr (.inr (.inr ⟨?_, Nat.lt_of_le_of_ne placed.row_le level⟩))
          rw [Tree.symbol_ofToken lexable, string]
    · rw [List.eq_of_mem_replicate missing]
      exact .inr (.inl ⟨rfl, rfl, Span.bytes_empty _⟩)

end MettaSyntax
