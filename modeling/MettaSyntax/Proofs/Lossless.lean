import MettaSyntax.Proofs.Closing
import MettaSyntax.Proofs.Order

/-! # No token of a text is lost

Whatever a text is, the leaves of its tree are its tokens in order, next to missing closing
parentheses of width zero at the end of the last of them.  Between the tokens there is only blank
space, and every node lies within its parent and after its siblings. -/

set_option autoImplicit false

namespace MettaSyntax

/-- The stretches between spans that follow one another, from the offset `lo` on and up to `hi`. -/
def gaps : Nat → List Span → Nat → List (Nat × Nat)
  | lo, [], hi => [(lo, hi)]
  | lo, s :: spans, hi => (lo, s.start.byte) :: gaps s.stop.byte spans hi

/-- Only blank space lies between two offsets, after the byte order mark if they begin a text. -/
def IsBlank (text : List Char) (gap : Nat × Nat) : Prop :=
  ∃ mark blank, slice? text gap.1 gap.2 = some (mark ++ blank) ∧
    (mark = [] ∨ gap.1 = 0 ∧ mark = [Lexer.byteOrderMark]) ∧ ∀ c ∈ blank, isSpace c = true

theorem isBlank_of_split {text before mark blank after : List Char}
    (split : text = before ++ (mark ++ blank) ++ after)
    (first : mark = [] ∨ before = [] ∧ mark = [Lexer.byteOrderMark])
    (space : ∀ c ∈ blank, isSpace c = true) :
    IsBlank text (byteLength before, byteLength before + byteLength (mark ++ blank)) := by
  refine ⟨mark, blank, ?_, ?_, space⟩
  · rw [split]
    exact slice?_append _ _ _
  · rcases first with none | ⟨start, here⟩
    · exact .inl none
    · exact .inr ⟨by rw [start]; rfl, here⟩

namespace Lexer

theorem Tiles.gaps_isBlank {text before mark cs : List Char} {p : Position} {ts : List Token}
    (h : Tiles p cs ts) (place : p = Position.origin.after (before ++ mark))
    (split : text = before ++ mark ++ cs)
    (first : mark = [] ∨ before = [] ∧ mark = [byteOrderMark]) :
    ∀ gap ∈ gaps (byteLength before) (ts.map Token.span) (byteLength text),
      IsBlank text gap := by
  induction h generalizing before mark with
  | @nil p blank space =>
      intro gap mem
      obtain rfl := List.mem_singleton.1 mem
      have whole : text = before ++ (mark ++ blank) ++ [] := by simp [split]
      have total : byteLength text = byteLength before + byteLength (mark ++ blank) := by
        rw [whole, List.append_nil, byteLength_append]
      rw [total]
      exact isBlank_of_split whole first space
  | @cons p blank body rest kind ts space ne inside tail ih =>
      have start : p.after blank = Position.origin.after (before ++ (mark ++ blank)) := by
        rw [place, ← Position.after_append, List.append_assoc]
      have stop : (p.after blank).after body =
          Position.origin.after ((before ++ (mark ++ blank) ++ body) ++ []) := by
        rw [start, ← Position.after_append, List.append_nil]
      have offset : ((p.after blank).after body).byte =
          byteLength (before ++ (mark ++ blank) ++ body) := by
        rw [stop, byte_after_origin, List.append_nil]
      intro gap mem
      rw [List.map_cons, gaps] at mem
      rcases List.mem_cons.1 mem with rfl | mem
      · have whole : text = before ++ (mark ++ blank) ++ (body ++ rest) := by simp [split]
        show IsBlank text (byteLength before, (p.after blank).byte)
        rw [start, byte_after_origin, byteLength_append]
        exact isBlank_of_split whole first space
      · apply ih stop _ (.inl rfl) gap
        · rw [← offset]
          exact mem
        · simp [split]

theorem Tiles.inOrder {p : Position} {cs : List Char} {ts : List Token} (h : Tiles p cs ts) :
    Tree.InOrder p.byte (ts.map .ofToken) (p.after cs).byte := by
  induction h with
  | @nil p blank space =>
      show p.byte ≤ (p.after blank).byte
      rw [Position.byte_after]
      omega
  | @cons p blank body rest kind ts space ne inside tail ih =>
      have before : p.byte ≤ (p.after blank).byte := by
        rw [Position.byte_after]
        omega
      have width : (p.after blank).byte ≤ ((p.after blank).after body).byte := by
        rw [Position.byte_after (p.after blank)]
        omega
      rw [Position.after_append, Position.after_append]
      exact ⟨before, width, ih⟩

end Lexer

namespace Tree

theorem InOrder.repair {row : List Tree} {hi : Nat} (h : InOrder 0 row hi) (n : Nat) :
    InOrder 0 (row ++ List.replicate n (missingAt .closing (endOf row))) hi := by
  have last : InOrder 0 row (endOf row).byte ∧ (endOf row).byte ≤ hi := by
    cases tail : row.getLast? with
    | none =>
        obtain rfl := List.getLast?_eq_none_iff.1 tail
        exact ⟨Nat.le_refl _, Nat.zero_le _⟩
    | some t =>
        obtain ⟨front, rfl⟩ := List.getLast?_eq_some_iff.1 tail
        obtain ⟨mid, inFront, before, inside, bound⟩ := inOrder_append.1 h
        rw [endOf_append_singleton]
        exact ⟨inOrder_append.2 ⟨mid, inFront, before, inside, Nat.le_refl _⟩, bound⟩
  -- what is missing takes no room, so it stands in order at the end of the row
  have flat : InOrder (endOf row).byte
      (List.replicate n (missingAt .closing (endOf row))) (endOf row).byte := by
    induction n with
    | zero => exact Nat.le_refl _
    | succ n ih => exact ⟨Nat.le_refl _, Nat.le_refl _, ih⟩
  exact (inOrder_append.2 ⟨_, last.1, flat⟩).mono (Nat.le_refl _) last.2

section Roots

variable {ending : Token} {held : List Tree} {t : Tree}

theorem isVisible_ending (he : ending.kind = .ending) : (ofToken ending).isVisible = false := by
  rw [isVisible, ofToken, symbol, he]
  rfl

theorem Whole.childless (h : t.Whole ending held) (he : ending.kind = .ending) :
    ((nodesRow t.children).filter isVisible).filter isChildless = held := by
  obtain ⟨label, row, rfl, parts, rfl, -⟩ := h
  have below := childless_nodesRow fun u hu => (parts u hu).1.childless (parts u hu).2
  have flat : nodesRow (row ++ [ofToken ending]) = nodesRow row ++ [ofToken ending] := by
    clear parts below
    induction row with
    | nil => simp [nodesRow, ofToken, nodes]
    | cons u row ih => simp [nodesRow, ih]
  rw [ofChildren, Tree.children, flat, List.filter_append, List.filter_append, below]
  simp [isVisible_ending he]

/-- The root is a file or an error. -/
theorem Whole.root_symbol (h : t.Whole ending held) :
    t.symbol = .nonterminal .sourceFile ∨ t.symbol = .error := by
  obtain ⟨label, row, rfl, -, -, rfl | ⟨rfl, -⟩⟩ := h
  · exact .inr rfl
  · exact .inl rfl

theorem Whole.isVisible (h : t.Whole ending held) : t.isVisible = true := by
  rw [Tree.isVisible]
  rcases h.root_symbol with file | error
  · rw [file]
    rfl
  · rw [error]
    rfl

/-- Below the root every node is well formed, and its leaves are some of those of the tree. -/
theorem Whole.of_mem_nodes (h : t.Whole ending held) {u : Tree} (hu : u ∈ nodesRow t.children) :
    u = ofToken ending ∨ u.Formed ∧ u.isPart = true ∧ u.leaves <:+: held := by
  obtain ⟨label, row, rfl, parts, rfl, -⟩ := h
  obtain ⟨c, hc, hu⟩ := mem_nodesRow.1 hu
  rcases List.mem_append.1 hc with hc | hc
  · obtain ⟨formed, part, within⟩ := (parts c hc).1.of_mem_nodes (parts c hc).2 u hu
    exact .inr ⟨formed, part, within.trans (infix_leavesRow hc)⟩
  · obtain rfl := List.mem_singleton.1 hc
    rw [ofToken, nodes] at hu
    exact .inl (List.mem_singleton.1 hu)

/-- Nothing that is missing is hidden. -/
theorem Whole.isVisible_of_isMissing (h : t.Whole ending held) {u : Tree} (hu : u ∈ t.nodes)
    (missing : u.isMissing = true) : u.isVisible = true := by
  rw [nodes_eq] at hu
  rcases List.mem_cons.1 hu with rfl | below
  · exact h.isVisible
  · rcases h.of_mem_nodes below with rfl | ⟨formed, -, -⟩
    · cases missing
    · cases formed with
      | leaf inside miss => exact visible_of_ne_ending inside
      | node p admits place parts formed => cases missing

theorem Whole.nests (h : t.Whole ending held) {lo hi : Nat}
    (ordered : InOrder lo (held ++ [ofToken ending]) hi) :
    ∀ u ∈ t :: nodesRow t.children, u.Nests := by
  have whole := h.extent.nests
  rw [h.leaves] at whole
  obtain ⟨label, row, rfl, parts, rfl, kinds⟩ := h
  intro u hu
  rcases List.mem_cons.1 hu with rfl | hu
  · apply whole _ ordered
    intro c hc
    rcases List.mem_append.1 hc with hc | hc
    · exact (parts c hc).1.ordered (parts c hc).2
    · exact List.mem_singleton.1 hc ▸ ordered_leaf ending false
  · obtain ⟨mid, first, last⟩ := inOrder_append.1 ordered
    rcases of_mem_nodes ⟨label, row, rfl, parts, rfl, kinds⟩ hu with rfl | ⟨formed, part, within⟩
    · have inside : InOrder mid (leaf ending false).leaves hi := by
        rw [Tree.leaves]
        exact last
      exact (extent_leaf ending false).nests (by simp [children]) inside
    · obtain ⟨lo', hi', inside⟩ := first.infix within
      exact formed.nests part inside

theorem Whole.stop (h : t.Whole ending held) : t.span.stop = ending.span.stop := by
  obtain ⟨label, row, rfl, -⟩ := h
  cases row with
  | nil => rfl
  | cons u row =>
      have last : (u :: row ++ [ofToken ending]).getLast? = some (ofToken ending) := by
        rw [List.getLast?_append]
        rfl
      rw [ofChildren, Tree.span, hull, last]
      rfl

end Roots

end Tree

theorem Lexer.endToken_stop (text : List Char) :
    (endToken text).span.stop.byte = byteLength text :=
  byte_after_origin text

/-- The leaves of a tree, missing parentheses and the end of the text included, are in order. -/
theorem leaves_inOrder (text : List Char) (n : Nat) :
    Tree.InOrder 0 ((Lexer.tokens text).map .ofToken ++
      List.replicate n (.missingAt .closing (Tree.endOf ((Lexer.tokens text).map .ofToken))) ++
        [.ofToken (Lexer.endToken text)]) (byteLength text) := by
  have reaches : (Position.origin.after (Lexer.mark text)).after (Lexer.body text) =
      Lexer.textEnd text := by
    rw [← Position.after_append, Lexer.mark_append_body]
    rfl
  have last := Lexer.endToken_stop text
  have ordered : Tree.InOrder 0 ((Lexer.tokens text).map .ofToken) (byteLength text) := by
    have inside := (Lexer.tokens_tiles text).inOrder
    rw [reaches] at inside
    exact inside.mono (Nat.zero_le _) (Nat.le_of_eq last)
  have ending : Tree.InOrder (byteLength text) [.ofToken (Lexer.endToken text)]
      (byteLength text) := by
    refine ⟨?_, ?_, ?_⟩
    · exact Nat.le_of_eq last.symm
    · exact Nat.le_refl _
    · exact Nat.le_of_eq last
  exact Tree.inOrder_append.2 ⟨_, ordered.repair n, ending⟩

/-- The tree of any text is lossless: the visible nodes below its root that show nothing below them,
those missing from the text apart, are the tokens of the text in order; between the tokens lies
only blank space; every node lies within its parent and after its earlier siblings; and the root
ends with the text. -/
theorem parse_lossless (text : List Char) :
    ((((parse text).preorder.map Cursor.tree).tail.filter Tree.isChildless).filter
        (!Tree.isMissing ·) = (Lexer.tokens text).map .ofToken) ∧
      (∀ gap ∈ gaps 0 ((Lexer.tokens text).map Token.span) (byteLength text),
        IsBlank text gap) ∧
      (∀ u ∈ (parse text).preorder.map Cursor.tree, u.Nests) ∧
      (parse text).span.stop.byte = byteLength text := by
  obtain ⟨n, whole⟩ := parse_repaired text
  have tiles := Lexer.tokens_tiles text
  have split : text = [] ++ Lexer.mark text ++ Lexer.body text := (Lexer.mark_append_body text).symm
  refine ⟨?_, ?_, ?_, ?_⟩
  · rw [Tree.map_tree_preorder, List.tail_cons, whole.childless rfl, List.filter_append,
      List.filter_map]
    have read : ∀ token ∈ Lexer.tokens text, ((!Tree.isMissing ·) ∘ Tree.ofToken) token = true := by
      intro token _
      rfl
    have none : (List.replicate n (Tree.missingAt .closing
        (Tree.endOf ((Lexer.tokens text).map .ofToken)))).filter (!Tree.isMissing ·) = [] := by
      simp [Tree.missingAt, Tree.isMissing]
    rw [List.filter_eq_self.2 read, none, List.append_nil]
  · apply tiles.gaps_isBlank rfl split
    rcases Lexer.mark_eq text with none | bom
    · exact .inl none
    · exact .inr ⟨rfl, bom⟩
  · intro u hu
    rw [Tree.map_tree_preorder] at hu
    apply whole.nests (leaves_inOrder text n) u
    rcases List.mem_cons.1 hu with rfl | hu
    · exact List.mem_cons_self
    · exact List.mem_cons_of_mem _ (List.mem_filter.1 hu).1
  · rw [whole.stop, Lexer.endToken_stop]

end MettaSyntax
