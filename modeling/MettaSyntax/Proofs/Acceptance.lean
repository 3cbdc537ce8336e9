import MettaSyntax.Proofs.Growing
import MettaSyntax.Proofs.Order

/-! # Which texts are accepted

Nothing is wrong with a text exactly when every scan of it succeeds and its parentheses are balanced.
While that may still be so the parser never skips a token: in a settled state outside of all lists
only a closing parenthesis is unwelcome, and inside of a list nothing is. -/

set_option autoImplicit false

namespace MettaSyntax

/-! ## Trees without errors have no diagnostics -/

namespace Diagnostic

theorem of?_eq_none_iff (t : Tree) : of? t = none ↔ t.isError = false ∧ t.isMissing = false := by
  unfold of?
  cases t.isError <;> cases t.isMissing <;> simp

theorem of?_leaf {token : Token} {missing : Bool} (h : of? (.leaf token missing) = none) :
    token.kind ≠ .unlexable ∧ missing = false := by
  obtain ⟨error, present⟩ := (of?_eq_none_iff _).1 h
  refine ⟨?_, present⟩
  intro unlexable
  rw [Tree.isError, Tree.symbol, unlexable] at error
  cases error

end Diagnostic

namespace Tree

theorem symbol_leaf_ne_skipped (token : Token) (missing : Bool) :
    (leaf token missing).symbol ≠ .skipped := by
  rw [symbol]
  cases token.kind <;> simp [TokenKind.toSymbol]

theorem symbol_ne_skipped {row : List Tree} (h : .skipped ∉ counted row) :
    ∀ t ∈ row, t.symbol ≠ .skipped := by
  intro t ht skipped
  by_cases extra : t.isExtra = true
  · cases t with
    | leaf token missing => exact symbol_leaf_ne_skipped token missing skipped
    | node label span children =>
        cases label with
        | production p => cases extra
        | error whole => cases skipped
        | skipped => cases extra
  · apply h
    rw [← skipped]
    exact List.mem_map.2 ⟨t, List.mem_filter.2 ⟨ht, by simpa using extra⟩, rfl⟩

theorem skipped_not_mem_of_spells {p : Production} {xs : List Symbol} (h : p.spells xs = true) :
    .skipped ∉ xs := by
  have element {e : Symbol} (he : Production.isElement e = true) : .skipped ≠ e := by
    rintro rfl
    cases he
  unfold Production.spells at h
  split at h
  · simp
  · simp
  · simp [element h]
  · simp [element h]
  · simp
  · simp [element h]
  · simp [element h]
  · simp [element h]
  · simp [element h]
  · simp
  · cases h

theorem Formed.clean {t : Tree} (h : Formed t) (hs : t.symbol ≠ .skipped)
    (quiet : ∀ u ∈ t.nodes, u.isVisible = true → Diagnostic.of? u = none) : Clean t := by
  induction h with
  | @leaf token missing inside miss =>
      have mine : (Tree.leaf token missing) ∈ (Tree.leaf token missing).nodes := by
        simp [nodes]
      obtain ⟨lexable, rfl⟩ := Diagnostic.of?_leaf (quiet _ mine (visible_of_ne_ending inside))
      exact .leaf lexable
  | @node label span row p admits place parts formed ih =>
      cases label with
      | production q =>
          have named := symbol_ne_skipped (skipped_not_mem_of_spells admits.1)
          refine .node fun t ht => ih t ht (named t ht) fun u hu visible => quiet u ?_ visible
          rw [nodes]
          exact List.mem_cons_of_mem _ (mem_nodesRow.2 ⟨t, ht, hu⟩)
      | error whole =>
          have mine : Tree.node (.error whole) span row ∈ (Tree.node (.error whole) span row).nodes := by
            simp [nodes]
          cases quiet _ mine rfl
      | skipped => exact absurd rfl hs

theorem Clean.quiet {t : Tree} (h : Clean t) : ∀ u ∈ t.nodes, Diagnostic.of? u = none := by
  induction h with
  | @leaf token h =>
      intro u hu
      rw [ofToken, nodes] at hu
      obtain rfl := List.mem_singleton.1 hu
      refine (Diagnostic.of?_eq_none_iff _).2 ⟨?_, rfl⟩
      rw [isError, symbol]
      cases hk : token.kind <;> first | rfl | exact absurd hk h
  | @node p span row h ih =>
      intro u hu
      rw [nodes] at hu
      rcases List.mem_cons.1 hu with rfl | hu
      · rfl
      · obtain ⟨t, mem, ht⟩ := mem_nodesRow.1 hu
        exact ih t mem u ht

theorem Whole.all_eq_nil_iff {ending : Token} {held : List Tree} {t : Tree}
    (h : t.Whole ending held) (he : ending.kind = .ending) : Diagnostic.all t = [] ↔ t.Clean := by
  rw [Diagnostic.all_eq_nil_iff]
  constructor
  · rintro ⟨root, quiet⟩
    obtain ⟨label, row, rfl, parts, -, rfl | ⟨rfl, spelt⟩⟩ := h
    · cases root
    · have named : ∀ u ∈ row, u.symbol ≠ .skipped := by
        apply symbol_ne_skipped
        rcases spelt with spelt | spelt
        · rw [spelt]
          simp
        · rw [spelt]
          simp
      refine .node fun u hu => ?_
      rcases List.mem_append.1 hu with hu | hu
      · refine (parts u hu).1.clean (named u hu) fun v hv visible => quiet v ?_ visible
        exact mem_nodesRow.2 ⟨u, List.mem_append_left _ hu, hv⟩
      · exact List.mem_singleton.1 hu ▸ .leaf (by simp [he])
  · intro clean
    have quiet := clean.quiet
    rw [nodes_eq] at quiet
    refine ⟨quiet t List.mem_cons_self, ?_⟩
    intro u hu _
    exact quiet u (List.mem_cons_of_mem _ hu)

/-- A whole tree without errors closes every list, and none of its leaves is missing or cannot be
read. -/
theorem Clean.balanced {ending : Token} {held : List Tree} {t : Tree} (clean : t.Clean)
    (h : t.Whole ending held) :
    nesting? 0 (held.map symbol) = some 0 ∧ ∀ u ∈ held, u.Clean := by
  obtain ⟨label, row, rfl, parts, rfl, rfl | ⟨rfl, spelt⟩⟩ := h
  · cases clean
  · have cleanRow : ∀ u ∈ row, u.Clean := fun u hu => clean.children u (List.mem_append_left _ hu)
    refine ⟨?_, ?_⟩
    · rw [nesting?_leavesRow fun u hu => (cleanRow u hu).level? (parts u hu).1]
      rcases spelt with spelt | spelt
      · rw [spelt]
        rfl
      · rw [spelt]
        rfl
    · intro u hu
      obtain ⟨v, mem, hv⟩ := mem_leavesRow.1 hu
      exact (cleanRow v mem).leaves u hv

end Tree

/-! ## The parser takes what may still be balanced -/

namespace Stack

def Clean (s : Stack) : Prop :=
  ∀ t ∈ s.trees, t.Clean

variable {s : Stack} {row : List Tree}

theorem Clean.push {f : Frame} (hs : s.Clean) (h : f.tree.Clean) : Clean (f :: s) :=
  forall_trees_cons.2 ⟨hs, h⟩

/-- A production is without errors if its children are. -/
theorem clean_gathers : Gathers (· ∧ ·) fun row : List Tree => ∀ t ∈ row, t.Clean where
  append xs ys := propext List.forall_mem_append
  production p span row := by
    rw [List.forall_mem_singleton]
    exact propext ⟨Tree.Clean.children, .node⟩

theorem Clean.settle (hs : s.Clean) (held : s.Holds row) (t : TokenKind) : (s.settle t).Clean := by
  have same := clean_gathers.grows (Grows.settle held t)
  rw [List.map_nil, List.append_nil] at same
  exact same.mpr hs

theorem Clean.complete (hs : s.Clean) (held : s.Holds row) : s.complete.Clean := by
  have same := clean_gathers.grows (Grows.complete held)
  rw [List.map_nil, List.append_nil] at same
  exact same.mpr hs

theorem Clean.grows {s' : Stack} {ts : List Token} (hs : s.Clean) (h : Grows s ts s')
    (lexable : ∀ t ∈ ts, t.kind ≠ .unlexable) : s'.Clean := by
  refine (clean_gathers.grows h).mpr fun u hu => ?_
  rcases List.mem_append.1 hu with hu | hu
  · exact hs u hu
  · obtain ⟨t, ht, rfl⟩ := List.mem_map.1 hu
    exact .leaf (lexable t ht)

theorem Clean.depth? (hs : s.Clean) (held : s.Holds row) :
    s.depth? = nesting? 0 (row.map Tree.symbol) := by
  rw [← held.leaves, Tree.nesting?_leavesRow fun t ht => (hs t ht).level? (held.formed t ht),
    Stack.depth?]

theorem Clean.depth (hs : s.Clean) (held : s.Holds row) :
    ∃ d, nesting? 0 (row.map Tree.symbol) = some d ∧ s.state.Allows d := by
  obtain ⟨d, depth, allows⟩ := held.viable.depth
  exact ⟨d, (hs.depth? held).symm.trans depth, allows⟩

end Stack

/-- A stack that has been read without errors from tokens that lead to some depth. -/
structure Stack.Reads (s : Stack) (ts : List Token) (d : Nat) : Prop where
  held : s.Open (ts.map .ofToken)
  grows : Stack.Grows [] ts s
  lexable : ∀ t ∈ ts, t.kind ≠ .unlexable
  level : nesting? 0 (ts.map (·.kind.toSymbol)) = some d

namespace Stack.Reads

variable {s : Stack} {ts : List Token} {d : Nat} (h : s.Reads ts d)
include h

theorem clean : s.Clean := by
  have empty : Stack.Clean [] := by simp [Stack.Clean]
  exact empty.grows h.grows h.lexable

theorem depth? : s.depth? = some d := by
  have start : Stack.depth? [] = some 0 := rfl
  rw [h.grows.depth?, start, Option.bind_some, h.level]

/-- Completing productions reads nothing more. -/
theorem grown {u : Stack} (more : Grows s [] u) (held : u.Open (ts.map .ofToken)) : u.Reads ts d where
  held := held
  grows := by
    have all := h.grows.trans more
    rwa [List.append_nil] at all
  lexable := h.lexable
  level := h.level

end Stack.Reads

/-- Tokens that can all be read, and that lead to some depth, are read without errors. -/
theorem Progress.exists_reads {ts : List Token} {d : Nat} (ending : ∀ t ∈ ts, t.kind ≠ .ending)
    (lexable : ∀ t ∈ ts, t.kind ≠ .unlexable)
    (level : nesting? 0 (ts.map (·.kind.toSymbol)) = some d) :
    ∃ s : Stack, readAll ts = ⟨s, none⟩ ∧ s.Reads ts d := by
  have empty : Stack.depth? [] = some 0 := rfl
  obtain ⟨s, reads, grows⟩ := foldl_read_grows .nil ending lexable (by
    rw [empty, Option.bind_some, level]
    simp)
  have held : Progress.Holds ⟨s, none⟩ (ts.map .ofToken) := reads ▸ readAll_holds ending
  exact ⟨s, reads, held, grows, lexable, level⟩

theorem Completion.whole?_clean {ending : Token} {s : Stack} {row : List Tree} (clean : s.Clean)
    (hs : s.Open row) (he : ending.kind = .ending)
    (balanced : nesting? 0 (row.map Tree.symbol) = some 0) :
    ∃ t, whole? s ending = some t ∧ t.Clean := by
  obtain ⟨t, whole⟩ := exists_whole? hs ((clean.depth? hs.toHolds).trans balanced)
  have below : ∀ u ∈ t.children, u.Clean := by
    refine (Stack.clean_gathers.whole? hs.toHolds he whole).mpr fun u hu => ?_
    rcases List.mem_append.1 hu with hu | hu
    · exact clean u hu
    · exact List.mem_singleton.1 hu ▸ .leaf (by simp [he])
  obtain ⟨_, _, _, -, -, -, -, -, rfl⟩ := whole?_eq hs.toHolds he whole
  exact ⟨_, whole, .node below⟩

theorem parse_whole {text : List Char} (clean : (parse text).Clean) :
    (parse text).Whole (Lexer.endToken text) ((Lexer.tokens text).map .ofToken) := by
  obtain ⟨n, whole⟩ := parse_repaired text
  cases n with
  | zero => simpa using whole
  | succ n =>
      have missing := (clean.balanced whole).2 (.missingAt .closing _)
        (List.mem_append_right _ (List.mem_replicate.2 ⟨Nat.succ_ne_zero n, rfl⟩))
      cases missing

/-- The tree of a text has no errors exactly when its tokens can all be read and are balanced. -/
theorem parse_clean_iff (text : List Char) :
    (parse text).Clean ↔
      .unlexable ∉ (Lexer.tokens text).map Token.kind ∧
        nesting? 0 (((Lexer.tokens text).map Token.kind).map TokenKind.toSymbol) = some 0 := by
  have symbols : (((Lexer.tokens text).map Tree.ofToken).map Tree.symbol) =
      ((Lexer.tokens text).map Token.kind).map TokenKind.toSymbol := by
    simp [Tree.ofToken, Tree.symbol, Function.comp_def]
  have inside := Lexer.tokens_ne_ending text
  rw [← symbols]
  constructor
  · intro clean
    obtain ⟨balanced, leaves⟩ := clean.balanced (parse_whole clean)
    refine ⟨?_, balanced⟩
    intro mem
    obtain ⟨token, ht, unlexable⟩ := List.mem_map.1 mem
    cases leaves (.ofToken token) (List.mem_map.2 ⟨token, ht, rfl⟩) with
    | leaf lexable => exact lexable unlexable
  · rintro ⟨lexable, balanced⟩
    have lexable' : ∀ t ∈ Lexer.tokens text, t.kind ≠ .unlexable := by
      intro t ht unlexable
      exact lexable (List.mem_map.2 ⟨t, ht, unlexable⟩)
    obtain ⟨s, reads, hs⟩ := Progress.exists_reads (d := 0) inside lexable' (by
      rwa [List.map_map] at balanced)
    have ending : (Lexer.endToken text).kind = .ending := rfl
    obtain ⟨t, whole, good⟩ := Completion.whole?_clean hs.clean hs.held ending balanced
    rw [parse, parse?, Completion.finish, reads]
    simp only [whole]
    exact good

/-- Acceptance is exact: there are no diagnostics exactly when scanning the text to its end never
fails and the parentheses among its tokens are balanced. -/
theorem diagnostics_eq_nil_iff (text : List Char) :
    Diagnostic.all (parse text) = [] ↔
      ∃ lexemes, Lexer.lexemes? (Lexer.body text) = some lexemes ∧
        (∀ n, ((lexemes.map Lexeme.kind).take n).count .closing ≤
          ((lexemes.map Lexeme.kind).take n).count .opening) ∧
        (lexemes.map Lexeme.kind).count .closing = (lexemes.map Lexeme.kind).count .opening := by
  obtain ⟨n, whole⟩ := parse_repaired text
  rw [whole.all_eq_nil_iff rfl, parse_clean_iff, Lexer.tokens_eq]
  cases read : Lexer.lexemes? (Lexer.body text) with
  | none =>
      have unlexable := Lexer.unlexable_of_lexemes? (Position.origin.after (Lexer.mark text)) read
      simp [unlexable]
  | some lexemes =>
      obtain ⟨same, lexable⟩ :=
        Lexer.kinds_of_lexemes? (Position.origin.after (Lexer.mark text)) read
      rw [same, nesting?_eq_some_iff]
      simp [lexable]

section Quiet

variable {text : List Char}

theorem parse_clean (quiet : Diagnostic.all (parse text) = []) : (parse text).Clean := by
  obtain ⟨n, whole⟩ := parse_repaired text
  exact (whole.all_eq_nil_iff rfl).1 quiet

/-- The tree of a text has no errors exactly when its tokens can be read and lead back to depth zero. -/
theorem parse_clean_iff_tokens :
    (parse text).Clean ↔ (∀ t ∈ Lexer.tokens text, t.kind ≠ .unlexable) ∧
      nesting? 0 ((Lexer.tokens text).map (·.kind.toSymbol)) = some 0 := by
  rw [parse_clean_iff, List.map_map]
  refine and_congr_left fun _ => ?_
  constructor
  · exact fun lexable t ht kind => lexable (List.mem_map.2 ⟨t, ht, kind⟩)
  · rintro lexable mem
    obtain ⟨t, ht, kind⟩ := List.mem_map.1 mem
    exact lexable t ht kind

end Quiet

end MettaSyntax
