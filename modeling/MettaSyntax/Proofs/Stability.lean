import MettaSyntax.Proofs.Continuation
import MettaSyntax.Proofs.Coverage
import MettaSyntax.Proofs.Defining
import MettaSyntax.Proofs.Layout

/-! # Finished code is stable

A text without errors has the same landmarks alone and with a line break and any other text after it.
Its definitions are read from its lists, and its semantic tokens from its tokens and lists, so the
definitions and semantic tokens of the longer text begin with those of the shorter one. -/

set_option autoImplicit false

namespace MettaSyntax

open MettaSyntax.Tree

/-- What holds of a member only if it held of those before it holds of the first members. -/
theorem filter_prefix_of_pairwise {α : Type} {p : α → Bool} {xs : List α}
    (h : xs.Pairwise fun a b => p b = true → p a = true) : xs.filter p <+: xs := by
  induction xs with
  | nil => exact List.prefix_rfl
  | cons x xs ih =>
      obtain ⟨first, rest⟩ := List.pairwise_cons.1 h
      by_cases hx : p x = true
      · rw [List.filter_cons_of_pos hx]
        exact (List.prefix_cons_inj x).2 (ih rest)
      · have none : xs.filter p = [] :=
          List.filter_eq_nil_iff.2 fun y hy later => hx (first y hy later)
        rw [List.filter_cons_of_neg hx, none]
        exact List.nil_prefix

/-! ## The nodes of a tree -/

section Nodes

variable (text : List Char)

/-- Every node below the root spans its leaves, and the leaves are in order. -/
theorem parse_nodes : (∀ u ∈ nodesRow (parse text).children, u.Extent) ∧
    InOrder 0 (leavesRow (parse text).children) (byteLength text) := by
  obtain ⟨n, whole⟩ := parse_repaired text
  refine ⟨fun u hu => ?_, ?_⟩
  · rcases whole.of_mem_nodes hu with rfl | ⟨formed, part, -⟩
    · exact extent_leaf _ _
    · exact formed.extent part
  · have leaves : leavesRow (parse text).children = (parse text).leaves := by
      apply leavesRow_children
      obtain ⟨label, row, eq, -⟩ := whole
      rw [eq, ofChildren, Tree.children]
      simp
    rw [leaves, whole.leaves]
    exact leaves_inOrder text n

theorem parse_within {u : Tree} (hu : u ∈ nodesRow (parse text).children) :
    u.span.start.byte ≤ u.span.stop.byte ∧ u.span.stop.byte ≤ byteLength text := by
  obtain ⟨extent, ordered⟩ := parse_nodes text
  exact (within_of_mem_nodesRow ordered hu (extent u hu)).2

/-- A node of the tree of a text has the same text in one that goes on. -/
theorem text?_extend {u : Tree} (hu : u ∈ nodesRow (parse text).children) (more : List Char) :
    u.text? (text ++ more) = u.text? text :=
  slice?_extend (parse_within text hu).2 more

/-- A node lies within the nodes above it. -/
theorem within_of_mem {t u : Tree} (ht : t ∈ nodesRow (parse text).children)
    (hu : u ∈ nodesRow t.children) :
    t.span.start.byte ≤ u.span.start.byte ∧ u.span.stop.byte ≤ t.span.stop.byte := by
  obtain ⟨extent, ordered⟩ := parse_nodes text
  obtain ⟨lo, hi, ordered⟩ := ordered.infix (leaves_infix_of_mem_nodesRow ht)
  obtain ⟨-, inside⟩ := (extent t ht).inOrder_leaves ordered
  have ne : t.children ≠ [] := by
    intro none
    rw [none] at hu
    cases hu
  rw [← leavesRow_children ne] at inside
  obtain ⟨start, -, stop⟩ := within_of_mem_nodesRow inside hu (extent u (nodesRow_subset_of_mem ht hu))
  exact ⟨start, stop⟩

theorem start_le_of_mem_nodes {t u : Tree} (ht : t ∈ nodesRow (parse text).children)
    (hu : u ∈ t.nodes) : t.span.start.byte ≤ u.span.start.byte := by
  rw [nodes_eq] at hu
  rcases List.mem_cons.1 hu with rfl | hu
  · exact Nat.le_refl _
  · exact (within_of_mem text ht hu).1

theorem isNonterminal_parse : (parse text).isNonterminal .list = false := by
  obtain ⟨n, whole⟩ := parse_repaired text
  rcases whole.root_symbol with file | error
  · simp [isNonterminal, file]
  · simp [isNonterminal, error]

end Nodes

section Clean

variable {text : List Char} (clean : (parse text).Clean)
include clean

/-- In a tree without errors every token is one of the text. -/
theorem mem_tokens_of_clean {u : Tree} (hu : u ∈ nodesRow (parse text).children) {kind : TokenKind}
    (symbol : u.symbol = .token kind) (inside : kind ≠ .ending) :
    ∃ t ∈ Lexer.tokens text, u = .ofToken t := by
  have held := (parse_whole clean).mem_held rfl hu symbol inside
  obtain ⟨t, ht, same⟩ := List.mem_map.1 held
  exact ⟨t, ht, same.symm⟩

/-- In a tree without errors every node but the end of the text begins before that end. -/
theorem start_lt_of_clean {u : Tree} (hu : u ∈ nodesRow (parse text).children)
    (ending : u ≠ .ofToken (Lexer.endToken text)) : u.span.start.byte < byteLength text := by
  rcases (parse_whole clean).of_mem_nodes hu with same | ⟨formed, part, within⟩
  · exact absurd same ending
  · obtain ⟨first, last, head, tail, span⟩ := formed.extent part
    have mem : first ∈ (Lexer.tokens text).map Tree.ofToken :=
      within.subset (List.mem_of_mem_head? head)
    obtain ⟨t, ht, rfl⟩ := List.mem_map.1 mem
    have below := (parse_whole clean).mem_nodes rfl (List.mem_map_of_mem ht)
    have stop := (parse_within text below).2
    have width := (Lexer.tokens_placed text t ht).start_lt
    rw [span]
    exact Nat.lt_of_lt_of_le width stop

variable (more : List Char)

/-- The early landmarks of the text are those of the longer text. -/
theorem mem_extend_iff {u : Tree} (early : u.isEarly (byteLength text) = true) :
    u ∈ nodesRow (parse (text ++ '\n' :: more)).children ↔ u ∈ nodesRow (parse text).children := by
  have same := parse_extend_landmarks clean more
  have mem {row : List Tree} : u ∈ landmarks (byteLength text) row ↔ u ∈ nodesRow row := by
    rw [landmarks, List.mem_filter, and_iff_left early]
  rw [← mem, same, mem]

/-! ## Definitions -/

omit clean in
theorem isLandmark_of_isList {u : Tree} (h : u.isNonterminal .list = true) : u.isLandmark = true := by
  cases u with
  | leaf token missing =>
      have symbol : (leaf token missing).symbol = .nonterminal .list := by simpa [isNonterminal] using h
      exact absurd symbol (Completion.symbol_leaf_ne token missing)
  | node label span children => exact h

omit clean in
theorem lists_filter (e : Nat) (root : Tree) :
    (Definition.lists root).filter (·.span.start.byte < e) =
      (landmarks e root.children).filter (isNonterminal .list) := by
  rw [Definition.lists, landmarks, List.filter_filter, List.filter_filter]
  congr 1
  funext u
  by_cases list : u.isNonterminal .list = true
  · simp [isEarly, isLandmark_of_isList list, list]
  · simp [list]

theorem lists_extend :
    Definition.lists (parse text) <+: Definition.lists (parse (text ++ '\n' :: more)) := by
  have early : ∀ u ∈ Definition.lists (parse text), u.span.start.byte < byteLength text := by
    intro u hu
    obtain ⟨mem, list⟩ := List.mem_filter.1 hu
    apply start_lt_of_clean clean mem
    rintro rfl
    cases list
  have sorted : (Definition.lists (parse (text ++ '\n' :: more))).Pairwise fun u v =>
      decide (v.span.start.byte < byteLength text) = true →
        decide (u.span.start.byte < byteLength text) = true := by
    obtain ⟨extent, ordered⟩ := parse_nodes (text ++ '\n' :: more)
    refine ((nodesRow_sorted extent ordered).filter _).imp fun {u v} le lt => ?_
    simp only [decide_eq_true_eq] at lt ⊢
    omega
  have all : (Definition.lists (parse text)).filter (·.span.start.byte < byteLength text) =
      Definition.lists (parse text) := List.filter_eq_self.2 (by simpa using early)
  rw [← all, lists_filter, ← parse_extend_landmarks clean more, ← lists_filter]
  exact filter_prefix_of_pairwise sorted

theorem ofList?_extend {list : Tree} (h : list ∈ Definition.lists (parse text)) :
    Definition.ofList? (text ++ '\n' :: more) (parse (text ++ '\n' :: more)) list =
      Definition.ofList? text (parse text) list := by
  obtain ⟨mem, isList⟩ := List.mem_filter.1 h
  have memMore := (List.mem_filter.1 ((lists_extend clean more).subset h)).1
  refine Definition.ofList?_eq (fun u hu => text?_extend text (nodes_subset_nodesRow mem hu) _) ?_
  intro name hname symbol
  obtain ⟨t, ht, rfl⟩ := mem_tokens_of_clean clean (nodesRow_subset_of_mem mem hname) symbol (by simp)
  have held : Tree.ofToken t ∈ list.leaves := by
    have inner : list.children ≠ [] := by
      intro none
      rw [none] at hname
      cases hname
    rw [← leavesRow_children inner]
    exact (leaves_infix_of_mem_nodesRow hname).subset (by simp)
  have width : (Tree.ofToken t).span.start.byte < (Tree.ofToken t).span.stop.byte :=
    (Lexer.tokens_placed text t ht).start_lt
  obtain ⟨extent, ordered⟩ := parse_nodes text
  obtain ⟨extentMore, orderedMore⟩ := parse_nodes (text ++ '\n' :: more)
  exact ⟨lowestListAround_eq width isList held _ memMore extentMore orderedMore none,
    lowestListAround_eq width isList held _ mem extent ordered none⟩

theorem definitions_extend :
    Definition.all text (parse text) <+:
      Definition.all (text ++ '\n' :: more) (parse (text ++ '\n' :: more)) := by
  obtain ⟨rest, split⟩ := lists_extend clean more
  rw [Definition.all_eq _ (isNonterminal_parse _), Definition.all_eq _ (isNonterminal_parse _), ← split,
    List.filterMap_append, List.filterMap_congr fun list => ofList?_extend clean more]
  exact List.prefix_append _ _

/-! ## Semantic tokens -/

omit clean in
/-- A node at which a rule is found is below the root, which is not a list or a token. -/
theorem mem_nodesRow_of_rule {rule : HighlightRule} (hr : rule ∈ Highlight.rules) {t : Tree}
    (ht : t ∈ (parse text).nodes) (symbol : t.symbol = rule.pattern.symbol) :
    t ∈ nodesRow (parse text).children := by
  obtain ⟨n, whole⟩ := parse_repaired text
  rw [nodes_eq] at ht
  rcases List.mem_cons.1 ht with top | below
  · have root := whole.root_symbol
    rw [← top, symbol] at root
    rcases Highlight.symbol_of_mem_rules rule hr with list | ⟨kind, token⟩
    · rw [list] at root
      rcases root with file | error
      · cases file
      · cases error
    · rw [token] at root
      rcases root with file | error
      · cases file
      · cases error
  · exact below

omit clean in
/-- A missing token has no width. -/
theorem span_of_mem_missing {token : Token} (h : .leaf token true ∈ nodesRow (parse text).children) :
    token.span.start = token.span.stop := by
  obtain ⟨n, whole⟩ := parse_repaired text
  rcases whole.of_mem_nodes h with same | ⟨formed, -⟩
  · cases same
  · cases formed with
    | leaf inside empty => exact (empty rfl).2

omit clean in
/-- A node at which a rule captures what has width is a landmark. -/
theorem isLandmark_of_captured {rule : HighlightRule} (hr : rule ∈ Highlight.rules) {t u : Tree}
    (ht : t ∈ nodesRow (parse text).children) (symbol : t.symbol = rule.pattern.symbol)
    (hu : u ∈ t.nodes) (wide : u.span.start.column < u.span.stop.column) : t.isLandmark = true := by
  rcases Highlight.symbol_of_mem_rules rule hr with list | ⟨kind, token⟩
  · exact isLandmark_of_isList (by simp [isNonterminal, symbol, list])
  · cases t with
    | node label span children =>
        rw [token] at symbol
        cases label <;> cases symbol
    | leaf token missing =>
        cases missing with
        | false => rfl
        | true =>
            rw [nodes] at hu
            rw [List.mem_singleton.1 hu, span, span_of_mem_missing ht] at wide
            exact absurd wide (Nat.lt_irrefl _)

omit clean in
/-- Where two trees share their early landmarks, and the texts agree there, they share their early
highlights. -/
theorem mem_all_of_shared {e : Nat} {text' : List Char}
    (shared : ∀ u ∈ nodesRow (parse text).children, u.isEarly e = true →
      u ∈ nodesRow (parse text').children ∧ ∀ v ∈ u.nodes, v.text? text = v.text? text')
    {h : HighlightSpan} (mem : h ∈ HighlightSpan.all text (parse text))
    (early : h.start.byte < e) : h ∈ HighlightSpan.all text' (parse text') := by
  obtain ⟨n, whole⟩ := parse_repaired text
  obtain ⟨n', whole'⟩ := parse_repaired text'
  obtain ⟨capture, captured, some⟩ := HighlightSpan.mem_all.1 mem
  obtain ⟨rule, hr, t, ht, seen, found, hf, admits, hc⟩ :=
    (Highlight.mem_captures whole.isVisible).1 captured
  obtain ⟨type, -, row, column, rfl⟩ := HighlightSpan.of?_eq_some_iff.1 some
  have captures : ∀ c ∈ found, c.2 ∈ t.nodes := fun c hc =>
    (Pattern.targets_matchTree rule.pattern t seen found hf c hc).2.1
  have symbol := Pattern.symbol_of_mem_matchTree hf
  have below := mem_nodesRow_of_rule hr ht symbol
  have first := start_le_of_mem_nodes text below (captures capture hc)
  have earlyT : t.isEarly e = true := by
    simp only [isEarly, isLandmark_of_captured hr below symbol (captures capture hc) column,
      Bool.true_and, decide_eq_true_eq]
    exact Nat.lt_of_le_of_lt first early
  obtain ⟨there, texts⟩ := shared t below earlyT
  have ht' : t ∈ (parse text').nodes := by
    rw [nodes_eq]
    exact List.mem_cons_of_mem _ there
  rw [rule.admits_congr fun c hc => texts c.2 (captures c hc)] at admits
  exact HighlightSpan.mem_all.2 ⟨capture, (Highlight.mem_captures whole'.isVisible).2
    ⟨rule, hr, t, ht', seen, found, hf, admits, hc⟩, some⟩

theorem mem_all_extend_iff {h : HighlightSpan} (early : h.start.byte < byteLength text) :
    h ∈ HighlightSpan.all (text ++ '\n' :: more) (parse (text ++ '\n' :: more)) ↔
      h ∈ HighlightSpan.all text (parse text) := by
  constructor
  · refine fun mem => mem_all_of_shared (fun u hu earlyU => ?_) mem early
    have below := (mem_extend_iff clean more earlyU).1 hu
    exact ⟨below, fun v hv => text?_extend text (nodes_subset_nodesRow below hv) _⟩
  · refine fun mem => mem_all_of_shared (fun u hu earlyU => ?_) mem early
    refine ⟨(mem_extend_iff clean more earlyU).2 hu, fun v hv => ?_⟩
    exact (text?_extend text (nodes_subset_nodesRow hu hv) _).symm

end Clean

namespace HighlightSpan

variable {text : List Char}

theorem start_lt_of_mem_all {h : HighlightSpan} (mem : h ∈ all text (parse text)) :
    h.start.byte < byteLength text := by
  obtain ⟨t, ht, -, start, -⟩ := token_of_mem_all mem
  have stop := (parse_within text (Tree.ofToken_mem_nodesRow ht)).2
  rw [start]
  exact Nat.lt_of_lt_of_le (Lexer.tokens_placed text t ht).start_lt stop

/-- Highlights at one place are those of one token. -/
theorem place_eq_of_meets {h k : HighlightSpan} (hh : h ∈ all text (parse text))
    (hk : k ∈ all text (parse text)) (meets : k.Meets h) : h.start = k.start ∧ h.length = k.length := by
  obtain ⟨t, ht, rowT, startT, lengthT⟩ := token_of_mem_all hh
  obtain ⟨u, hu, rowU, startU, lengthU⟩ := token_of_mem_all hk
  obtain ⟨row, column⟩ := meets
  rw [startT, startU] at row column
  obtain rfl := Lexer.tokens_unique text hu rowU ht rowT row column
  exact ⟨startT.trans startU.symm, lengthT.trans lengthU.symm⟩

/-- The highlights at one place differ in their numbers. -/
theorem eq_of_meets {h k : HighlightSpan} (hh : h ∈ all text (parse text))
    (hk : k ∈ all text (parse text)) (meets : h.Meets k) (index : h.index = k.index) : h = k := by
  obtain ⟨n, whole⟩ := parse_repaired text
  obtain ⟨start, length⟩ := place_eq_of_meets hk hh meets
  obtain ⟨capture, captured, someH⟩ := mem_all.1 hh
  obtain ⟨capture', captured', someK⟩ := mem_all.1 hk
  obtain ⟨type, typed, -, -, rfl⟩ := of?_eq_some_iff.1 someH
  obtain ⟨type', typed', -, -, rfl⟩ := of?_eq_some_iff.1 someK
  have name : capture.1 = capture'.1 :=
    (List.idxOf_inj (Highlight.name_of_mem_captures whole.isVisible captured)).1 index
  rw [name, typed', Option.some.injEq] at typed
  rw [HighlightSpan.mk.injEq]
  exact ⟨start.symm, length.symm, index, typed.symm⟩

theorem kept_unique {hs : List HighlightSpan} {h k : HighlightSpan} (hh : h ∈ kept none hs)
    (hk : k ∈ kept none hs) : h.Meets k → h = k := by
  let Same (h k : HighlightSpan) : Prop := h.Meets k → h = k
  have symmetric : Std.Symm Same :=
    ⟨fun h k same meets => (same ⟨meets.1.symm, meets.2.symm⟩).symm⟩
  have apart : (kept none hs).Pairwise Same := by
    refine (kept_ascend none hs).imp fun {h k} before meets => ?_
    rw [Before, Position.before_iff] at before
    unfold Meets at meets
    omega
  exact apart.forall_of_forall (fun h _ _ => rfl) hh hk

/-- A highlight is kept where it has the smallest number at its place. -/
theorem mem_kept_iff {k : HighlightSpan} :
    k ∈ kept none (all text (parse text)) ↔
      k ∈ all text (parse text) ∧ ∀ h ∈ all text (parse text), k.Meets h → k.index ≤ h.index := by
  have subset := (kept_sublist none (all text (parse text))).subset
  constructor
  · refine fun hk => ⟨subset hk, fun h hh meets => ?_⟩
    obtain ⟨k', hk', meets', least⟩ := exists_kept (all_sorted _ _) h hh
    have same : k.Meets k' := ⟨meets.1.trans meets'.1.symm, meets.2.trans meets'.2.symm⟩
    rw [kept_unique hk hk' same]
    exact least
  · rintro ⟨hk, least⟩
    obtain ⟨k', hk', meets, smaller⟩ := exists_kept (all_sorted _ _) k hk
    have back : k.Meets k' := ⟨meets.1.symm, meets.2.symm⟩
    have index := Nat.le_antisymm (least k' (subset hk') back) smaller
    rw [eq_of_meets hk (subset hk') back index]
    exact hk'

end HighlightSpan

section Extension

variable {text : List Char} (clean : (parse text).Clean) (more : List Char)
include clean

theorem kept_extend :
    HighlightSpan.kept none (HighlightSpan.all text (parse text)) <+:
      HighlightSpan.kept none
        (HighlightSpan.all (text ++ '\n' :: more) (parse (text ++ '\n' :: more))) := by
  have asymm : ∀ h k : HighlightSpan, h.Before k → ¬ k.Before h := by
    intro h k before back
    rw [HighlightSpan.Before, Position.before_asymm before] at back
    cases back
  have sorted : (HighlightSpan.kept none
      (HighlightSpan.all (text ++ '\n' :: more) (parse (text ++ '\n' :: more)))).Pairwise fun h k =>
        decide (k.start.byte < byteLength text) = true →
          decide (h.start.byte < byteLength text) = true := by
    refine (HighlightSpan.kept_ascend _ _).imp_of_mem fun {h k} hh hk before lt => ?_
    obtain ⟨t, ht, -, startH, -⟩ :=
      HighlightSpan.token_of_mem_all ((HighlightSpan.kept_sublist _ _).subset hh)
    obtain ⟨u, hu, -, startK, -⟩ :=
      HighlightSpan.token_of_mem_all ((HighlightSpan.kept_sublist _ _).subset hk)
    rw [HighlightSpan.Before, startH, startK] at before
    have le := Lexer.byte_le_of_before ht hu before
    rw [startK, decide_eq_true_eq] at lt
    rw [startH, decide_eq_true_eq]
    omega
  have early : (HighlightSpan.kept none
      (HighlightSpan.all (text ++ '\n' :: more) (parse (text ++ '\n' :: more)))).filter
        (·.start.byte < byteLength text) =
      HighlightSpan.kept none (HighlightSpan.all text (parse text)) := by
    refine eq_of_strictly_sorted asymm ((HighlightSpan.kept_ascend _ _).filter _)
      (HighlightSpan.kept_ascend _ _) fun k => ?_
    rw [List.mem_filter, HighlightSpan.mem_kept_iff, HighlightSpan.mem_kept_iff, decide_eq_true_eq]
    constructor
    · rintro ⟨⟨hk, least⟩, lt⟩
      refine ⟨(mem_all_extend_iff clean more lt).1 hk, fun h hh meets => ?_⟩
      exact least h ((mem_all_extend_iff clean more (HighlightSpan.start_lt_of_mem_all hh)).2 hh) meets
    · rintro ⟨hk, least⟩
      have lt := HighlightSpan.start_lt_of_mem_all hk
      have hk' := (mem_all_extend_iff clean more lt).2 hk
      refine ⟨⟨hk', fun h hh meets => ?_⟩, lt⟩
      have same : h.start = k.start := (HighlightSpan.place_eq_of_meets hh hk' meets).1
      exact least h ((mem_all_extend_iff clean more (same ▸ lt)).1 hh) meets
  rw [← early]
  exact filter_prefix_of_pairwise sorted

theorem semanticTokens_extend :
    SemanticToken.all text (parse text) <+:
      SemanticToken.all (text ++ '\n' :: more) (parse (text ++ '\n' :: more)) := by
  obtain ⟨rest, split⟩ := kept_extend clean more
  obtain ⟨q, parts⟩ := SemanticToken.relativeTo_append .origin
    (HighlightSpan.kept none (HighlightSpan.all text (parse text))) rest
  rw [SemanticToken.all_eq, SemanticToken.all_eq, ← split, parts]
  exact List.prefix_append _ _

end Extension

/-- Finished code is stable. The definitions of a text without diagnostics are the first ones, and its
semantic tokens the first ones, of every text that goes on after it on a new line. -/
theorem prefix_of_diagnostics_eq_nil {text : List Char} (h : Diagnostic.all (parse text) = [])
    (more : List Char) :
    Definition.all text (parse text) <+:
        Definition.all (text ++ '\n' :: more) (parse (text ++ '\n' :: more)) ∧
      SemanticToken.all text (parse text) <+:
        SemanticToken.all (text ++ '\n' :: more) (parse (text ++ '\n' :: more)) := by
  obtain ⟨n, whole⟩ := parse_repaired text
  have clean : (parse text).Clean := (whole.all_eq_nil_iff rfl).1 h
  exact ⟨definitions_extend clean more, semanticTokens_extend clean more⟩

/-- The definition of a function. -/
def functionLayout : Layout :=
  ⟨[.list [] [.atom [] .symbol ['='],
    .list [' '] [.atom [] .symbol ['f'], .atom [' '] .variable ['$', 'x']] [],
    .atom [' '] .number ['1']] []], []⟩

theorem functionLayout_quiet : Diagnostic.all (parse functionLayout.text) = [] := by
  have valid : functionLayout.Valid := by
    refine ⟨?_, by simp [functionLayout, IsSpace]⟩
    simp [functionLayout, Piece.ValidRow, Piece.Valid, Piece.textRow, Piece.text, IsSpace, isSpace,
      IsAtom, isDelimiter]
    decide
  obtain ⟨n, whole⟩ := parse_repaired functionLayout.text
  exact (whole.all_eq_nil_iff rfl).2 (Layout.clean valid (by decide))

/-- A definition stays the first one where a stray parenthesis and an open string follow. -/
theorem prefix_of_functionLayout :
    Diagnostic.all (parse functionLayout.text) = [] ∧
      Definition.all functionLayout.text (parse functionLayout.text) <+:
        Definition.all (functionLayout.text ++ "\n) \"".toList)
          (parse (functionLayout.text ++ "\n) \"".toList)) ∧
      SemanticToken.all functionLayout.text (parse functionLayout.text) <+:
        SemanticToken.all (functionLayout.text ++ "\n) \"".toList)
          (parse (functionLayout.text ++ "\n) \"".toList)) :=
  ⟨functionLayout_quiet, prefix_of_diagnostics_eq_nil functionLayout_quiet ") \"".toList⟩

end MettaSyntax
