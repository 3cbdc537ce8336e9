import MettaSyntax.Outline.NameAt
import MettaSyntax.Proofs.Coverage
import MettaSyntax.Proofs.Spelling

/-! # The name under an offset

The way down to a byte leads to the leaf that the byte lies in, whatever nodes are passed on the way,
and stops at a node over the byte.  So the name under an offset is the text of the symbol or variable
whose token covers the offset, and where no such token does there is no name.  An offset counts by its
lower 32 bits: inside a text that is short enough this is the offset itself, but one far beyond the
end of a text can name a symbol at its head. -/

set_option autoImplicit false

namespace MettaSyntax

/-- The byte with the given offset lies in a span. -/
def Span.Covers (s : Span) (byte : Nat) : Prop :=
  s.start.byte ≤ byte ∧ byte < s.stop.byte

namespace Tree

/-! ## The way down to a byte -/

section Way

variable {byte : Nat}

theorem covers_of_childOver? {t c : Tree} (h : t.childOver? byte = some c) : c.span.Covers byte := by
  rw [childOver?, Option.filter_eq_some_iff] at h
  exact ⟨by simpa using h.2, by simpa using List.find?_some h.1⟩

/-- Of siblings in order, the one that covers a byte is the one that is chosen. -/
theorem childOver?_eq {t c : Tree} (hc : c ∈ t.children) {lo hi : Nat}
    (ordered : InOrder lo t.children hi) (covers : c.span.Covers byte) : t.childOver? byte = some c := by
  obtain ⟨start, stop⟩ := covers
  obtain ⟨before, after, split⟩ := List.append_of_mem hc
  have found : t.children.find? (byte < ·.span.stop.byte) = some c := by
    rw [split] at ordered ⊢
    clear hc split
    induction before generalizing lo with
    | nil =>
        rw [List.nil_append, List.find?_cons_of_pos]
        simpa using stop
    | cons b before ih =>
        obtain ⟨above, inside, rest⟩ := ordered
        obtain ⟨mid, first, here, -⟩ := inOrder_append.1 rest
        have early := first.le
        rw [List.cons_append, List.find?_cons_of_neg]
        · exact ih rest
        · simp
          omega
  rw [childOver?, found, Option.filter_some, if_pos (by simpa using start)]

/-- On the way down to a byte in a leaf nothing leads away from the leaf. -/
theorem lowestOver_eq {token : Token} {missing : Bool}
    (visible : (leaf token missing).isVisible = true) (covers : token.span.Covers byte) (t : Tree)
    (held : leaf token missing ∈ leavesRow t.children)
    (extent : ∀ u ∈ nodesRow t.children, u.Extent) {lo hi : Nat}
    (ordered : InOrder lo (leavesRow t.children) hi) (best : Tree) :
    lowestOver byte best t = leaf token missing := by
  obtain ⟨c, hc, inC⟩ := mem_leavesRow.1 held
  have nodesC : ∀ u ∈ c.nodes, u.Extent := fun u hu => extent u (mem_nodesRow.2 ⟨c, hc, hu⟩)
  have row : InOrder lo t.children hi := inOrder_of_leavesRow
    (fun u hu => extent u (mem_nodesRow_of_mem hu)) ordered
  obtain ⟨lo', hi', leavesC⟩ := ordered.infix (infix_leavesRow hc)
  obtain ⟨-, inside⟩ := (nodesC c (mem_nodes_self c)).inOrder_leaves leavesC
  obtain ⟨start, -, stop⟩ := inside.within inC
  have coversC : c.span.Covers byte := ⟨Nat.le_trans start covers.1, Nat.lt_of_lt_of_le covers.2 stop⟩
  have way : t.childOver? byte = some c := childOver?_eq hc row coversC
  rw [lowestOver]
  split
  · next d found =>
      obtain rfl : c = d := Option.some.inj (way.symm.trans found)
      cases c with
      | leaf token' missing' =>
          rw [leaves] at inC
          rw [← List.mem_singleton.1 inC, if_pos visible, lowestOver]
          rfl
      | node label span children =>
          rw [leaves] at inC leavesC
          exact lowestOver_eq visible covers (.node label span children) inC
            (fun u hu => nodesC u (by rw [nodes]; exact List.mem_cons_of_mem _ hu)) leavesC _
  · next none => cases way.symm.trans none
  termination_by t.size
  decreasing_by exact size_lt_of_mem hc

/-- The way down to a byte stops at a node over the byte, unless it does not begin. -/
theorem mem_of_lowestOver (t : Tree) {best u : Tree} (h : lowestOver byte best t = u) :
    u = best ∨ u ∈ nodesRow t.children ∧ u.span.Covers byte := by
  rw [lowestOver] at h
  split at h
  · next c found =>
      have hc := mem_of_childOver? found
      have row : c ∈ nodesRow t.children := mem_nodesRow_of_mem hc
      rcases mem_of_lowestOver c h with here | ⟨below, covers⟩
      · split at here
        · exact .inr ⟨here ▸ row, here ▸ covers_of_childOver? found⟩
        · exact .inl here
      · exact .inr ⟨nodesRow_subset_of_mem row below, covers⟩
  · exact .inl h.symm
  termination_by t.size
  decreasing_by exact size_lt_of_mem hc

end Way

end Tree

/-! ## Tokens over a byte -/

namespace Token

/-- A symbol or a variable. -/
def isName (t : Token) : Bool :=
  t.kind = .atom .symbol || t.kind = .atom .variable

end Token

theorem Lexer.spells_iff {text : List Char} {t : Token} (h : t ∈ tokens text) {word : List Char} :
    t.span.Spells text word ↔ slice? text t.span.start.byte t.span.stop.byte = some word := by
  refine ⟨Span.Spells.slice?, fun cut => ?_⟩
  obtain ⟨word', spells⟩ := exists_spells h
  obtain rfl : word' = word := Option.some.inj (spells.slice?.symm.trans cut)
  exact spells

section Names

variable {text : List Char} {offset : UInt64}

/-- A node with the symbol of a token is one of the tokens, unless it may be missing or is the end. -/
theorem mem_tokens_of_symbol {u : Tree} (hu : u ∈ Tree.nodesRow (parse text).children)
    {kind : TokenKind} (symbol : u.symbol = .token kind) (present : kind ≠ .closing)
    (inside : kind ≠ .ending) : ∃ t ∈ Lexer.tokens text, t.kind = kind ∧ u = .ofToken t := by
  obtain ⟨n, whole⟩ := parse_repaired text
  rcases List.mem_append.1 (whole.mem_held rfl hu symbol inside) with held | held
  · obtain ⟨t, ht, rfl⟩ := List.mem_map.1 held
    exact ⟨t, ht, Tree.eq_of_toSymbol symbol, rfl⟩
  · rw [(List.mem_replicate.1 held).2] at symbol
    exact absurd (Symbol.token.inj symbol).symm present

/-- A node with the symbol of a name is one of the tokens. -/
theorem mem_tokens_of_isName {u : Tree} (hu : u ∈ Tree.nodesRow (parse text).children)
    (name : u.isAtomKind .symbol = true ∨ u.isAtomKind .variable = true) :
    ∃ t ∈ Lexer.tokens text, t.isName = true ∧ u = .ofToken t := by
  have told (kind : AtomKind) (h : u.isAtomKind kind = true) :
      ∃ t ∈ Lexer.tokens text, t.kind = .atom kind ∧ u = .ofToken t :=
    mem_tokens_of_symbol hu (by simpa [Tree.isAtomKind] using h) (by simp) (by simp)
  rcases name with name | name
  · obtain ⟨t, ht, kind, same⟩ := told .symbol name
    exact ⟨t, ht, by simp [Token.isName, kind], same⟩
  · obtain ⟨t, ht, kind, same⟩ := told .variable name
    exact ⟨t, ht, by simp [Token.isName, kind], same⟩

/-- The node over a byte of a token is the token. -/
theorem nodeOver_eq {t : Token} (ht : t ∈ Lexer.tokens text) {byte : Nat}
    (covers : t.span.Covers byte) : (parse text).nodeOver byte = .ofToken t := by
  obtain ⟨extent, ordered⟩ := parse_nodes text
  have visible : (Tree.ofToken t).isVisible = true :=
    Tree.visible_of_ne_ending (Lexer.tokens_ne_ending text t ht)
  have held : Tree.ofToken t ∈ Tree.leavesRow (parse text).children :=
    (Tree.leaves_infix_of_mem_nodesRow (Tree.ofToken_mem_nodesRow ht)).subset (by simp)
  exact Tree.lowestOver_eq visible covers _ held extent ordered _

/-- There is a name exactly where the lower bits of the offset lie in the token of a symbol or a
variable, and then it is the text of the token. -/
theorem nameAt?_eq_some_iff {name : List Char} :
    nameAt? text (parse text) offset = some name ↔
      ∃ t ∈ Lexer.tokens text, t.isName = true ∧ t.span.Covers (offset.toNat % UInt32.size) ∧
        t.span.Spells text name := by
  have bits : offset.toUInt32.toNat = offset.toNat % UInt32.size := UInt64.toNat_toUInt32 offset
  rw [nameAt?, bits]
  constructor
  · intro h
    simp only [Bool.or_eq_true, Option.ite_none_right_eq_some] at h
    obtain ⟨named, cut⟩ := h
    rcases Tree.mem_of_lowestOver (parse text) (rfl : (parse text).nodeOver _ = _) with root | below
    · -- the root is no token, so it has no name
      obtain ⟨n, whole⟩ := parse_repaired text
      rw [root] at named
      rcases whole.root_symbol with symbol | symbol <;>
        simp [Tree.isAtomKind, symbol] at named
    · obtain ⟨mem, covers⟩ := below
      obtain ⟨t, ht, isName, same⟩ := mem_tokens_of_isName mem named
      rw [same] at covers cut
      exact ⟨t, ht, isName, covers, (Lexer.spells_iff ht).2 cut⟩
  · rintro ⟨t, ht, named, covers, spells⟩
    have kind : (Tree.ofToken t).isAtomKind .symbol = true ∨
        (Tree.ofToken t).isAtomKind .variable = true := by
      simp only [Token.isName, Bool.or_eq_true, decide_eq_true_eq] at named
      refine named.imp (fun symbol => ?_) fun sigil => ?_
      · simp [Tree.isAtomKind, Tree.ofToken, Tree.symbol, symbol, TokenKind.toSymbol]
      · simp [Tree.isAtomKind, Tree.ofToken, Tree.symbol, sigil, TokenKind.toSymbol]
    simp only [nodeOver_eq ht covers]
    rw [if_pos (by simpa using kind)]
    exact spells.slice?

theorem nameAt?_eq_none_iff :
    nameAt? text (parse text) offset = none ↔
      ∀ t ∈ Lexer.tokens text, t.span.Covers (offset.toNat % UInt32.size) → t.isName = false := by
  rw [Option.eq_none_iff_forall_not_mem]
  constructor
  · intro none t ht covers
    by_contra named
    obtain ⟨word, spells⟩ := Lexer.exists_spells ht
    exact none word (nameAt?_eq_some_iff.2 ⟨t, ht, by simpa using named, covers, spells⟩)
  · intro none name some
    obtain ⟨t, ht, named, covers, -⟩ := nameAt?_eq_some_iff.1 some
    rw [none t ht covers] at named
    cases named

end Names

/-- Inside a text of less than 2^32 bytes there is a name under an offset exactly where the offset
lies in a symbol or a variable, and the name is the whole of it. -/
theorem nameAt?_inside {text : List Char} {offset : UInt64} (short : byteLength text < UInt32.size)
    (inside : offset.toNat < byteLength text) :
    (∀ name, nameAt? text (parse text) offset = some name ↔
      ∃ t ∈ Lexer.tokens text, t.isName = true ∧ t.span.Covers offset.toNat ∧ t.span.Spells text name) ∧
    (nameAt? text (parse text) offset = none ↔
      ∀ t ∈ Lexer.tokens text, t.span.Covers offset.toNat → t.isName = false) := by
  have whole : offset.toNat % UInt32.size = offset.toNat := Nat.mod_eq_of_lt (by omega)
  refine ⟨fun name => ?_, ?_⟩
  · rw [nameAt?_eq_some_iff, whole]
  · rw [nameAt?_eq_none_iff, whole]

/-- The offset 2 lies inside the two bytes of the symbol `é`. -/
theorem nameAt?_inside_accent :
    byteLength "(é $x)".toList < UInt32.size ∧ (2 : UInt64).toNat < byteLength "(é $x)".toList ∧
      (∀ name, nameAt? "(é $x)".toList (parse "(é $x)".toList) 2 = some name ↔
        ∃ t ∈ Lexer.tokens "(é $x)".toList, t.isName = true ∧ t.span.Covers (2 : UInt64).toNat ∧
          t.span.Spells "(é $x)".toList name) ∧
      (nameAt? "(é $x)".toList (parse "(é $x)".toList) 2 = none ↔
        ∀ t ∈ Lexer.tokens "(é $x)".toList, t.span.Covers (2 : UInt64).toNat → t.isName = false) := by
  have short : byteLength "(é $x)".toList < UInt32.size := by decide
  have inside : (2 : UInt64).toNat < byteLength "(é $x)".toList := by decide
  exact ⟨short, inside, nameAt?_inside short inside⟩

/-- An offset at or beyond the end of a text names nothing where its lower 32 bits lie in no symbol or
variable, and so where it has no more than 32 bits. -/
theorem nameAt?_beyond {text : List Char} {offset : UInt64} (beyond : byteLength text ≤ offset.toNat) :
    (nameAt? text (parse text) offset = none ↔
      ∀ t ∈ Lexer.tokens text, t.span.Covers (offset.toNat % UInt32.size) → t.isName = false) ∧
    (offset.toNat < UInt32.size → nameAt? text (parse text) offset = none) := by
  refine ⟨nameAt?_eq_none_iff, fun small => nameAt?_eq_none_iff.2 fun t ht covers => ?_⟩
  rw [Nat.mod_eq_of_lt small] at covers
  obtain ⟨n, whole⟩ := parse_repaired text
  have below := whole.mem_nodes rfl (List.mem_append_left _ (List.mem_map_of_mem ht))
  have stop : t.span.stop.byte ≤ byteLength text := (parse_within text below).2
  have outside := covers.2
  omega

/-- An offset after a variable. -/
theorem nameAt?_beyond_variable :
    byteLength "$x".toList ≤ (3 : UInt64).toNat ∧
      (nameAt? "$x".toList (parse "$x".toList) 3 = none ↔
        ∀ t ∈ Lexer.tokens "$x".toList, t.span.Covers ((3 : UInt64).toNat % UInt32.size) →
          t.isName = false) ∧
      ((3 : UInt64).toNat < UInt32.size → nameAt? "$x".toList (parse "$x".toList) 3 = none) := by
  have beyond : byteLength "$x".toList ≤ (3 : UInt64).toNat := by decide
  exact ⟨beyond, nameAt?_beyond beyond⟩

/-- An offset of 2^32 in a text of one byte names what the offset 0 does. -/
theorem nameAt?_wraps :
    byteLength "a".toList ≤ (4294967296 : UInt64).toNat ∧
      nameAt? "a".toList (parse "a".toList) 4294967296 = some "a".toList := by
  refine ⟨by decide, nameAt?_eq_some_iff.2 ⟨⟨.atom .symbol, ⟨.origin, ⟨1, 0, 1⟩⟩⟩, ?_, rfl, ?_, ?_⟩⟩
  · have scanned : Lexeme.scan? ((Lexer.body "a".toList).dropWhile isSpace) =
        some ⟨.atom .symbol, "a".toList, []⟩ := rfl
    rw [Lexer.tokens_eq, Lexer.tokensFrom_of_some _ scanned (by simp)]
    exact List.mem_cons_self
  · exact ⟨by decide, by decide⟩
  · exact ⟨[], [], rfl, rfl⟩

end MettaSyntax
