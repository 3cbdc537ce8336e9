import MettaSyntax.Proofs.Cutting
import MettaSyntax.Proofs.Moving
import MettaSyntax.Proofs.Repairs

/-! # An unclosed list

Where a text ends within a list that has an element, supplying the closing parenthesis is the cheapest
way to complete the tree: to give up the list, or the whole text, costs more, for both skip the opening
parenthesis and the element. -/

set_option autoImplicit false

namespace MettaSyntax

open Stack

/-! ## What skipping an open list costs -/

namespace State

/-- The least that it costs to skip the list that is open in a state, as far as it has been read. -/
def openCost : State → Nat
  | .opened => Cost.skippedTree
  | .headed _ => 2 * Cost.skippedTree
  | .applied _ => 2 * Cost.skippedTree
  | _ => 0

theorem openCost_of_endsWell {s : State} (h : s.endsWell = true) : s.openCost = 0 := by
  cases s <;> first | rfl | cases h

/-- Where more is open after a symbol, the symbol is seen. -/
theorem openCost_step? {b s : State} {x : Symbol} (edge : b.step? x = some s) :
    s.openCost ≤ b.openCost ∨
      x.visible = true ∧ x ≠ .error ∧ s.openCost ≤ b.openCost + Cost.skippedTree := by
  have source := mem_sources_of_step? edge
  cases s with
  | opened =>
      obtain ⟨b', -, same⟩ := List.mem_map.1 source
      obtain ⟨rfl, rfl⟩ := Prod.mk.inj same
      exact .inr ⟨rfl, by simp, Nat.le_add_left _ _⟩
  | headed e =>
      obtain ⟨rfl, rfl⟩ := Prod.mk.inj (List.mem_singleton.1 source)
      exact .inr (by cases e <;> exact ⟨rfl, by simp [Element.symbol], Nat.le_refl _⟩)
  | applied e =>
      obtain ⟨rfl, rfl⟩ := Prod.mk.inj (List.mem_singleton.1 source)
      exact .inl (Nat.le_refl _)
  | _ => exact .inl (Nat.zero_le _)

/-- Where a list is open and nothing can be completed, it has just been opened, or has an element and
awaits its end. -/
theorem opened_or_begun {s : State} (done : s.completion? = none) (inside : s.isInside = true) :
    s = .opened ∨ ∃ e, s = .headed e ∨ s = .applied e := by
  cases s with
  | opened => exact .inl rfl
  | headed e => exact .inr ⟨e, .inl rfl⟩
  | applied e => exact .inr ⟨e, .inr rfl⟩
  | firstArgument e => cases e <;> cases done
  | nextArgument e => cases e <;> cases done
  | _ => cases inside

end State

/-- Skipping what lies above a place where the text might have ended skips the open list. -/
theorem Stack.Viable.openCost_le {below : Stack} (ends : below.state.endsWell = true) {up : Stack}
    (hs : Viable (up ++ below)) : (up ++ below).state.openCost ≤ Tree.skipCosts up.trees := by
  induction up with
  | nil => rw [List.nil_append, State.openCost_of_endsWell ends]; exact Nat.zero_le _
  | cons f up ih =>
      rw [trees_cons, Tree.skipCosts_append]
      cases hs with
      | extra h hs => exact (ih hs).trans (Nat.le_add_right _ _)
      | step h edge hs =>
          have before := ih hs
          rcases State.openCost_step? edge with less | ⟨visible, present, more⟩
          · exact (less.trans before).trans (Nat.le_add_right _ _)
          · have shown : f.tree.isVisible = true := visible
            have own : f.tree.skipCost = Cost.skippedTree := by
              rw [Tree.skipCost, if_neg (by simp [h, Tree.isError, present]), if_pos shown]
            rw [Tree.skipCosts, own, Tree.skipCosts]
            exact more.trans (Nat.add_le_add_right before _)

namespace Completion

variable {ending : Token} {s : Stack} {row : List Tree}

/-! ## Supplying the parenthesis -/

/-- The stack after a closing parenthesis has been supplied. -/
def Supplied (s r : Stack) : Prop :=
  ∃ next, s.state.shift? .closing = some next ∧
    r = Stack.complete (⟨.missingAt .closing s.position, next⟩ :: s)

section Supplied

variable {r : Stack} (hs : s.Open row) (h : Supplied s r)
include hs h

theorem Supplied.isOpen : r.Open (row ++ [.missingAt .closing s.position]) := by
  obtain ⟨next, shift, rfl⟩ := h
  exact (hs.shift (t := ⟨.closing, .empty s.position⟩) shift (.missingAt _)).complete

theorem Supplied.grows : ∃ next, Grows (⟨.missingAt .closing s.position, next⟩ :: s) [] r := by
  obtain ⟨next, shift, rfl⟩ := h
  exact ⟨next, Grows.complete
    (hs.shift (t := ⟨.closing, .empty s.position⟩) shift (.missingAt _)).toHolds⟩

/-- Supplying a closing parenthesis adds that to what a stack amounts to. -/
theorem Supplied.gathers {α : Type} {op : α → α → α} {f : List Tree → α} (gathers : Gathers op f) :
    f r.trees = op (f s.trees) (f [.missingAt .closing s.position]) := by
  obtain ⟨next, grows⟩ := h.grows hs
  have same := gathers.grows grows
  rwa [List.map_nil, List.append_nil, trees_cons, gathers.append] at same

theorem Supplied.depth? {d : Nat} (deep : s.depth? = some (d + 1)) : r.depth? = some d := by
  obtain ⟨next, grows⟩ := h.grows hs
  have one : Tree.counted [.missingAt .closing s.position] = [.token .closing] := rfl
  have pushed : Stack.depth? (⟨.missingAt .closing s.position, next⟩ :: s) = some d := by
    rw [Stack.depth?, trees_cons, Tree.counted_append, nesting?_append, ← Stack.depth?, deep, one]
    rfl
  rw [grows.depth?, pushed]
  rfl

end Supplied

/-- A stack without errors costs nothing but what is supplied. -/
theorem Supplied.errorCost {r : Stack} {t : Tree} (h : Supplied s r) (hs : s.Open row) (clean : s.Clean)
    (he : ending.kind = .ending) (ht : whole? r ending = some t) : t.errorCost = Cost.missing := by
  rw [(whole?_amounts (h.isOpen hs).toHolds he ht).2.2.2, h.gathers hs errorCosts_gathers,
    Tree.errorCosts_clean clean]
  rfl

/-- A list that has an element awaits its end, which can be supplied. -/
theorem exists_supplied (begun : ∃ e, s.state = .headed e ∨ s.state = .applied e) :
    ∃ r, Supplied s r ∧ supply? s = some r := by
  obtain ⟨e, state⟩ := begun
  have waits : s.state.insertion? = some .closing := by
    rcases state with state | state <;> rw [state]
    · exact (State.insertion?_open e).2.1
    · exact (State.insertion?_open e).2.2
  obtain ⟨next, shift⟩ : ∃ next, s.state.shift? .closing = some next := by
    rcases state with state | state <;> rw [state] <;> exact ⟨_, rfl⟩
  refine ⟨_, ⟨next, shift, rfl⟩, ?_⟩
  rw [supply?, waits, Option.bind_eq_bind, Option.bind_some, shift]
  rfl

/-! ## Giving up the list -/

theorem wayBack?_ends {supplied : Option Stack} {best : Option Tree} {depth : Nat}
    {ways : List Stack} {u : Stack} (h : wayBack? s supplied best depth ways = some u) :
    u.state.endsWell = true := by
  fun_induction wayBack? s supplied best depth ways with
  | case1 => cases h
  | case2 depth below more same ih => exact ih h
  | case3 depth below more other hopeless => cases h
  | case4 depth below more other going ends => exact Option.some.inj h ▸ ends
  | case5 depth below more other going goes ih => exact ih h

/-- Counting all of a text as one error skips the open list. -/
theorem le_broken_of_open (hs : s.Open row) (ending : Token) :
    Cost.recovery + s.state.openCost ≤ (broken s.trees ending).errorCost := by
  have skipped : (s ++ []).state.openCost ≤ Tree.skipCosts s.trees :=
    Viable.openCost_le rfl (by simpa using hs.viable)
  rw [List.append_nil] at skipped
  have least := le_broken_errorCost s.trees ending
  omega

/-- Giving up all since a place where the text might have ended skips the open list. -/
theorem le_givenUp_of_open (hs : s.Open row) (he : ending.kind = .ending) {below : Stack} {k : Nat}
    (mem : below ∈ (s.suffixes k).tail) (ends : below.state.endsWell = true) {u : Tree}
    (given : givenUp? s below [] ending = some u) :
    Cost.recovery + s.state.openCost ≤ u.errorCost := by
  obtain ⟨up, rfl, counts⟩ := mem_suffixes_tail mem
  rw [← List.append_nil up.trees] at counts
  have opened := giveUp_open hs (by simp) counts
  rw [givenUp?, above_append] at given
  rw [(whole?_amounts opened.toHolds he given).2.2.2]
  have skipped := Viable.openCost_le ends hs.viable
  rw [← List.append_nil up.trees] at skipped
  exact (Nat.add_le_add_left skipped _).trans (le_pushError_errorCosts counts below)

/-! ## The cheapest way -/

theorem keep_of_lt {t : Tree} {other : Option Tree} (h : ∀ u ∈ other, t.errorCost < u.errorCost) :
    keep (some t) other = some t := by
  cases other with
  | none => rfl
  | some u =>
      have less := h u rfl
      rw [keep, Tree.prefer, if_neg (by omega), if_pos less]

/-- Where only the end of a list that has an element is awaited, supplying it is the cheapest way to
complete the tree. -/
theorem close_supplied {ts : List Token} (hs : s.Reads ts 1) (he : ending.kind = .ending)
    (begun : ∃ e, s.state = .headed e ∨ s.state = .applied e) (n : Nat) :
    ∃ r t, Supplied s r ∧ whole? r ending = some t ∧ close ending (n + 1) s none = some t := by
  obtain ⟨r, supplied, found⟩ := exists_supplied begun
  obtain ⟨t, whole⟩ := exists_whole? (supplied.isOpen hs.held) (supplied.depth? hs.held hs.depth?)
  refine ⟨r, t, supplied, whole, ?_⟩
  -- every other tree skips the opening parenthesis and the element at least
  have dearer {u : Tree} (h : Cost.recovery + s.state.openCost ≤ u.errorCost) :
      t.errorCost < u.errorCost := by
    have dear : s.state.openCost = 2 * Cost.skippedTree := by
      obtain ⟨e, state⟩ := begun
      rcases state with state | state <;> rw [state] <;> rfl
    rw [supplied.errorCost hs.held hs.clean he whole]
    rw [dear] at h
    exact lt_of_lt_of_le (by decide) h
  have all : t.errorCost < (broken s.trees ending).errorCost := dearer (le_broken_of_open hs.held ending)
  have back : ∀ u ∈ (wayBack? s (some r) none 2 (s.suffixes (reach - 1)).tail).bind
      (givenUp? s · [] ending), t.errorCost < u.errorCost := by
    intro u hu
    obtain ⟨below, way, given⟩ := Option.bind_eq_some_iff.1 hu
    exact dearer (le_givenUp_of_open hs.held he (wayBack?_mem way) (wayBack?_ends way) given)
  have go : ¬(some (broken s.trees ending)).any (·.errorCost < cost s + Cost.recovery) = true := by
    have least := le_broken_errorCost s.trees ending
    simp only [Option.any_some, decide_eq_true_eq, cost, Tree.errorCosts_clean hs.clean]
    omega
  have kept : keep (some (broken s.trees ending)) (some t) = some t := by
    rw [keep, Tree.prefer, if_pos all]
  have start : keep none (some (broken s.trees ending)) = some (broken s.trees ending) := rfl
  rw [close, found]
  simp only [Option.bind_some, whole, start, if_neg go, kept]
  exact keep_of_lt back

end Completion

/-! ## Reading up to the missing parenthesis -/

namespace Tree

/-- An extra without errors is a comment. -/
theorem Clean.kept_extras {row : List Tree} (clean : ∀ t ∈ row, t.Clean) (formed : ∀ t ∈ row, t.Formed)
    (extra : ∀ t ∈ row, t.isExtra = true) : ∀ t ∈ keptRow row, t.kind = .comment := by
  induction row with
  | nil => simp
  | cons u row ih =>
      obtain ⟨span, item⟩ := (clean u List.mem_cons_self).isItem_of_isExtra
        (formed u List.mem_cons_self) (extra u List.mem_cons_self)
      have leaves := item.leaves
      rw [(clean u List.mem_cons_self).leaves_eq] at leaves
      have kept := List.map_injective_iff.2 ofToken_injective leaves
      intro t ht
      rw [keptRow_cons, kept, Item.tokens] at ht
      rcases List.mem_append.1 ht with ht | ht
      · rw [List.mem_singleton.1 ht]
      · exact ih (fun v hv => clean v (List.mem_cons_of_mem _ hv))
          (fun v hv => formed v (List.mem_cons_of_mem _ hv))
          (fun v hv => extra v (List.mem_cons_of_mem _ hv)) t ht

end Tree

/-- Comments apart, the last token read is the opening parenthesis where nothing else of a list has been
read. -/
theorem Stack.last_of_opened {s : Stack} {row : List Tree} (hs : s.Open row) (clean : s.Clean)
    (opened : s.state = .opened) :
    ∃ t ∈ ((Tree.keptRow s.trees).filter (·.kind ≠ .comment)).getLast?, t.kind = .opening := by
  obtain ⟨below, body, taken, -⟩ := hs.viable.opened opened
  obtain ⟨t, after, rfl, -, symbol, rest⟩ := Tree.exists_head_of_counted taken.head taken.counted
  have mem {u : Tree} (hu : u ∈ t :: after) : u ∈ s.trees := by
    rw [taken.trees]
    exact List.mem_append_right _ hu
  obtain ⟨span, rfl⟩ := (clean t (mem List.mem_cons_self)).eq_ofToken symbol
  have comments := Tree.Clean.kept_extras (fun u hu => clean u (mem (List.mem_cons_of_mem _ hu)))
    (fun u hu => hs.formed u (mem (List.mem_cons_of_mem _ hu))) (Tree.counted_eq_nil_iff.1 rest)
  have none : (Tree.keptRow after).filter (·.kind ≠ .comment) = [] := by
    apply List.filter_eq_nil_iff.2
    intro u hu
    simp [comments u hu]
  refine ⟨⟨.opening, span⟩, ?_, rfl⟩
  rw [taken.trees, Tree.keptRow_append, Tree.keptRow_cons, Tree.kept_ofToken, List.filter_append,
    List.filter_append, none]
  simp

/-- The tree of a text that ends in one open list, which has an element: the list is as if it were closed
where the last token ends, and nothing else is wrong. -/
theorem parse_unclosed {text : List Char} (lexable : ∀ t ∈ Lexer.tokens text, t.kind ≠ .unlexable)
    (deep : nesting? 0 ((Lexer.tokens text).map (·.kind.toSymbol)) = some 1)
    (last : ∀ t ∈ ((Lexer.tokens text).filter (·.kind ≠ .comment)).getLast?, t.kind ≠ .opening) :
    let stop := Tree.endOf ((Lexer.tokens text).map .ofToken)
    (parse text).Mended ∧
      Tree.keptRow (parse text).children =
        Lexer.tokens text ++ [⟨.closing, .empty stop⟩] ++ [Lexer.endToken text] ∧
      Diagnostic.all (parse text) = [⟨.missing ")", .empty stop⟩] := by
  have he : (Lexer.endToken text).kind = .ending := rfl
  obtain ⟨s, readAll, hs⟩ := Progress.exists_reads (Lexer.tokens_ne_ending text) lexable deep
  have unfinished : Completion.whole? s (Lexer.endToken text) = none :=
    Completion.whole?_eq_none hs.held hs.depth?
  obtain ⟨settled, within⟩ := Completion.settled_of_whole?_none hs.held unfinished
  have more := (Grows.settle hs.held.toHolds .ending).trans (Grows.complete settled.toHolds)
  have hu : (s.settle .ending).complete.Reads (Lexer.tokens text) 1 := hs.grown more settled.complete
  have begun : ∃ e, (s.settle .ending).complete.state = .headed e ∨
      (s.settle .ending).complete.state = .applied e := by
    rcases State.opened_or_begun settled.completed (settled.complete_inside within) with opened | begun
    · obtain ⟨t, ht, opening⟩ := Stack.last_of_opened hu.held hu.clean opened
      rw [hu.kept] at ht
      exact absurd opening (last t ht)
    · exact begun
  obtain ⟨r, t, supplied, whole, close⟩ := Completion.close_supplied hu he begun 5
  have parsed : parse text = t := by
    rw [parse, parse?, readAll, Completion.finish]
    simp only [unfinished]
    rw [show Completion.rounds = 5 + 1 from rfl, close]
    rfl
  obtain ⟨keeps, mends, diagnostics, -⟩ :=
    Completion.whole?_amounts (supplied.isOpen hu.held).toHolds he whole
  subst parsed
  have all := supplied.gathers hu.held mended_gathers
  have row := supplied.gathers hu.held kept_gathers
  have wrong := supplied.gathers hu.held diagnostics_gathers
  rw [hu.held.position] at all row wrong
  refine ⟨mends (all.mpr ⟨fun v hv => (hu.clean v hv).mended, ?_⟩), ?_, ?_⟩
  · intro v hv
    exact List.mem_singleton.1 hv ▸ .leaf (by simp)
  · rw [keeps, row, hu.kept]
    rfl
  · rw [diagnostics, wrong, Diagnostic.below_clean hu.clean]
    rfl

/-! ## The list that is closed last -/

namespace Item

/-- A row of items does not end with an opening parenthesis, even apart from comments. -/
theorem last_ne_opening (row : List Item) :
    ∀ t ∈ ((tokensRow row).filter (·.kind ≠ .comment)).getLast?, t.kind ≠ .opening := by
  induction row with
  | nil => simp
  | cons i row ih =>
      intro t ht
      rw [tokensRow_cons, List.filter_append, List.getLast?_append, Option.mem_def,
        Option.or_eq_some_iff] at ht
      rcases ht with later | ⟨-, own⟩
      · exact ih t later
      · cases i with
        | atom kind span =>
            rw [tokens] at own
            simp only [List.filter_cons, List.filter_nil] at own
            cases own
            simp
        | comment span => simp [tokens] at own
        | list opening items closing =>
            have closes : [(⟨.closing, closing⟩ : Token)].filter (·.kind ≠ .comment) =
              [⟨.closing, closing⟩] := rfl
            rw [tokens, ← List.cons_append, List.filter_append, closes, List.getLast?_concat] at own
            cases own
            simp

theorem filter_tokensRow_ne_nil {row : List Item} (h : elements row ≠ []) :
    (tokensRow row).filter (·.kind ≠ .comment) ≠ [] := by
  obtain ⟨i, hi⟩ := List.exists_mem_of_ne_nil _ h
  obtain ⟨mem, plain⟩ := List.mem_filter.1 hi
  obtain ⟨t, ht, other⟩ : ∃ t ∈ i.tokens, t.kind ≠ .comment := by
    cases i with
    | atom kind span => exact ⟨_, by rw [tokens]; exact List.mem_singleton_self _, by simp⟩
    | comment span => cases plain
    | list opening items closing => exact ⟨_, by rw [tokens]; exact List.mem_cons_self, by simp⟩
  exact List.ne_nil_of_mem (List.mem_filter.2 ⟨tokens_subset_of_mem mem ht, by simpa using other⟩)

/-- A row of items whose last token is a closing parenthesis ends with a list. -/
theorem exists_last_list {row : List Item} {ts : List Token} {closing : Span}
    (h : tokensRow row = ts ++ [⟨.closing, closing⟩]) :
    ∃ front opening inner, row = front ++ [.list opening inner closing] ∧
      ts = tokensRow front ++ ⟨.opening, opening⟩ :: tokensRow inner := by
  rcases List.eq_nil_or_concat row with rfl | ⟨front, i, rfl⟩
  · cases ts <;> cases h
  · rw [List.concat_eq_append, tokensRow_append, tokensRow_cons, tokensRow_nil, List.append_nil] at h
    cases i with
    | atom kind span =>
        rw [tokens] at h
        cases (List.append_inj' h rfl).2
    | comment span =>
        rw [tokens] at h
        cases (List.append_inj' h rfl).2
    | list opening inner closing' =>
        rw [tokens, ← List.cons_append, ← List.append_assoc] at h
        obtain ⟨before, last⟩ := List.append_inj' h rfl
        cases last
        exact ⟨front, opening, inner, List.concat_eq_append, before.symm⟩

/-- In a row of items that ends with a list no other list closes where that does. -/
theorem eq_of_closing {front inner items : List Item} {opening opening' closing : Span}
    (other : ⟨.closing, closing⟩ ∉ tokensRow front ++ ⟨.opening, opening⟩ :: tokensRow inner)
    (h : .list opening' items closing ∈ listsRow (front ++ [.list opening inner closing])) :
    items = inner := by
  have closes : ⟨.closing, closing⟩ ∈ (list opening' items closing).tokens := by simp [tokens]
  rw [listsRow_append, listsRow, listsRow, lists, List.append_nil] at h
  rcases List.mem_append.1 h with before | h
  · exact absurd (List.mem_append_left _ (tokens_subset_of_mem_listsRow before closes)) other
  · rcases List.mem_cons.1 h with same | within
    · cases same
      rfl
    · have := tokens_subset_of_mem_listsRow within closes
      exact absurd (List.mem_append_right _ (List.mem_cons_of_mem _ this)) other

end Item

section Closed

variable {text : List Char}

/-- The list node whose last child is the given closing parenthesis reads as a list that closes there,
and if an element is among its children, the list has one. -/
theorem exists_list_of_node (clean : (parse text).Clean) {last : Token} {list c d : Cursor}
    (hl : list ∈ (parse text).preorder) (isList : list.tree.isNonterminal .list = true)
    (hc : list.childCursors.getLast? = some c) (closes : c.tree.span = last.span)
    (hd : d ∈ list.childCursors) (element : d.tree.isElement = true) :
    ∃ opening items, .list opening items last.span ∈
        Item.listsRow (Tree.itemsRow (parse text).children) ∧ Item.elements items ≠ [] := by
  have symbol : list.tree.symbol = .nonterminal .list := by simpa [Tree.isNonterminal] using isList
  have visible : list.tree.isVisible = true := Tree.isVisible_of_isList isList
  have mem : list.tree ∈ Tree.nodesRow (parse text).children := list_mem_nodesRow hl isList
  have seen : list.childCursors.map Cursor.tree = Tree.visibleRow list.tree.children := by
    rw [Cursor.map_tree_childCursors visible, Tree.visibleChildren_eq]
  obtain ⟨formed, -⟩ := formed_of_mem mem visible
  obtain ⟨i, reads⟩ := formed.readsAs (by rw [Tree.isElement, symbol]; rfl)
  cases reads with
  | atom other => rw [symbol] at other; cases other
  | @list o closing mid missing other children span between =>
      have ends : closing = last.span := by
        have shown : Tree.visibleRow [.leaf ⟨.closing, closing⟩ missing] =
            [.leaf ⟨.closing, closing⟩ missing] :=
          rfl
        have final := congrArg List.getLast? seen
        rw [List.getLast?_map, hc, Option.map_some, children, ← List.cons_append,
          Tree.visibleRow_append, shown, List.getLast?_concat] at final
        rw [← closes, Option.some.inj final]
        rfl
      subst ends
      refine ⟨o, Tree.itemsRow list.tree.children, ?_, ?_⟩
      · rw [← (itemsRow_parse clean.mended).2, List.mem_flatMap]
        have reads := Tree.ReadsAs.list other children span between
        exact ⟨list.tree, List.mem_filter.2 ⟨mem, isList⟩,
          by rw [reads.items]; exact List.mem_singleton_self _⟩
      · have own : d.tree ∈ Tree.elements list.tree.children := by
          refine List.mem_filter.2 ⟨?_, element⟩
          rw [← seen]
          exact List.mem_map_of_mem hd
        rcases getElem?_elements clean.mended mem 0 with ⟨none, -⟩ | ⟨-, -, i, -, -, some⟩
        · rw [List.getElem?_eq_none_iff, Nat.le_zero, List.length_eq_zero_iff] at none
          rw [none] at own
          cases own
        · exact List.ne_nil_of_mem (List.mem_of_getElem? some)

end Closed

/-- The last token of a text, where it is a closing parenthesis, is what the text before it lacks. -/
theorem Lexer.tokens_before_last {text more : List Char} {last : Token}
    (lexable : ∀ t ∈ tokens (text ++ ')' :: more), t.kind ≠ .unlexable)
    (final : (tokens (text ++ ')' :: more)).getLast? = some last)
    (place : last.span.start.byte = byteLength text) :
    tokens (text ++ ')' :: more) = tokens text ++ [⟨.closing, last.span⟩] ∧
      ⟨.closing, last.span⟩ ∉ tokens text := by
  have mem := List.mem_of_getLast? final
  obtain ⟨span, rest, start, split⟩ := tokens_cut lexable ⟨last, mem, place⟩
  have none : rest = [] := by
    rcases List.eq_nil_or_concat rest with none | ⟨init, u, some⟩
    · exact none
    · -- another token after the parenthesis would begin after it
      have ordered := (tokens_tiles (text ++ ')' :: more)).ascend.2
      have closing := tokens_placed (text ++ ')' :: more) ⟨.closing, span⟩ (by simp [split])
      rw [split, some, List.concat_eq_append] at final ordered
      have same : u = last := by
        rw [← List.cons_append, ← List.append_assoc, List.getLast?_concat] at final
        exact Option.some.inj final
      have later := (List.pairwise_cons.1 (List.pairwise_append.1 ordered).2.1).1 u (by simp)
      obtain ⟨gap, begins⟩ := later
      have width := closing.start_lt
      rw [same] at begins
      rw [begins, Position.byte_after] at place
      simp only [start, byte_after_origin] at width place
      omega
  subst none
  rw [split, List.getLast?_concat] at final
  obtain rfl := Option.some.inj final
  refine ⟨split, fun earlier => ?_⟩
  have width : span.start.byte < span.stop.byte := (tokens_placed text _ earlier).start_lt
  have within : span.stop.byte ≤ byteLength text := stop_le earlier
  have begins : span.start.byte = byteLength text := place
  omega

/-- An equation without its last parenthesis, and with a comment after the last element. -/
def unclosedEquation : List Char :=
  "(= (f $x) $x ; identity\n".toList

end MettaSyntax
