import MettaSyntax.Proofs.Joining
import MettaSyntax.Proofs.Repairs

/-! # Stray closing parentheses

A closing parenthesis outside of all lists is skipped, and so are those right after it.  The next token
apart from comments is read as if nothing had been skipped, with the skipped parentheses as one error
before it.  Where the text ends first, giving up just the parentheses costs no more than giving up the
whole text. -/

set_option autoImplicit false

namespace MettaSyntax

open Stack

/-! ## Where no list is open -/

namespace Stack

variable {s : Stack} {row : List Tree}

theorem Open.outside (hs : s.Open row) (balanced : s.depth? = some 0) : s.state.isInside = false := by
  obtain ⟨d, depth, allows⟩ := hs.viable.depth
  rw [← Stack.depth?, balanced] at depth
  obtain rfl := Option.some.inj depth
  by_contra inside
  have deep := allows.2 (by simpa using inside)
  omega

/-- The states in which an element of the file may begin. -/
def Rested (s : Stack) : Prop :=
  s.state = .start ∨ s.state = .sequence

theorem Rested.reduction? (h : s.Rested) {t : TokenKind} (ending : t ≠ .ending) :
    s.state.reduction? t = none := by
  rcases h with state | state <;> rw [state] <;> cases t <;> first | rfl | exact absurd rfl ending

theorem Rested.settle (h : s.Rested) {t : TokenKind} (ending : t ≠ .ending) : s.settle t = s := by
  have one : s.state.rank = 1 := by rcases h with state | state <;> rw [state] <;> rfl
  rw [Stack.settle, one, reduceWhile]
  simp only [h.reduction? ending, Option.bind_none]

theorem Rested.shift?_closing (h : s.Rested) : s.state.shift? .closing = none := by
  rcases h with state | state <;> rw [state] <;> rfl

end Stack

/-- Outside of all lists a closing parenthesis is the first token to be skipped. -/
theorem Progress.readToken_closing {s : Stack} {ts : List Token} (hs : s.Reads ts 0) (span : Span) :
    ∃ u : Stack, readToken s ⟨.closing, span⟩ = ⟨u, some (.start ⟨.closing, span⟩)⟩ ∧
      u.Reads ts 0 ∧ u.Rested := by
  have settled := hs.held.settle (t := .closing) (by simp)
  have before : (s.settle .closing).Reads ts 0 := hs.grown (.settle hs.held.toHolds .closing) settled
  have stuck : (s.settle .closing).state.shift? .closing = none := by
    cases shift : (s.settle .closing).state.shift? .closing with
    | none => rfl
    | some next =>
        have rested := State.start_or_sequence_of_shift? shift (settled.outside before.depth?)
        rw [Rested.shift?_closing rested] at shift
        cases shift
  have reads : (s.settle .closing).complete.Reads ts 0 :=
    before.grown (.complete settled.toHolds) settled.complete
  refine ⟨(s.settle .closing).complete, ?_, reads, ?_⟩
  · rw [readToken, if_neg (by simp)]
    simp only [stuck]
  · by_contra other
    have outside := reads.held.outside reads.depth?
    rw [State.isInside_of_completion? settled.completed reads.held.unfinished
      (fun state => other (.inl state)) fun state => other (.inr state)] at outside
    cases outside

/-! ## What is skipped -/

/-- A run of closing parentheses from one place to another has been skipped. -/
structure Skipping.Strays (k : Skipping) (start stop : Position) : Prop where
  run : ∃ row, k.run = .node .skipped ⟨start, stop⟩ row
  comments : k.comments = []
  below : ∀ u ∈ Tree.nodesRow [k.run],
    u.symbol = .skipped ∨ ∃ span, u = .ofToken ⟨.closing, span⟩

namespace Skipping

theorem Strays.row_eq {k : Skipping} {start stop : Position} (h : k.Strays start stop) :
    k.row = [k.run] := by
  rw [row, h.comments]

theorem Strays.start (span : Span) : (Skipping.start ⟨.closing, span⟩).Strays span.start span.stop where
  run := ⟨_, rfl⟩
  comments := rfl
  below := by
    intro u hu
    simp only [Skipping.start, Tree.ofChildren, Tree.ofToken, Tree.nodesRow, Tree.nodes, List.append_nil,
      List.mem_cons, List.not_mem_nil, or_false] at hu
    rcases hu with rfl | rfl
    · exact .inl rfl
    · exact .inr ⟨span, rfl⟩

theorem Strays.skip {k : Skipping} {start stop : Position} (h : k.Strays start stop) (span : Span) :
    (k.skip ⟨.closing, span⟩).Strays start span.stop where
  run := by
    obtain ⟨row, run⟩ := h.run
    rw [Skipping.skip, h.row_eq, run]
    exact ⟨_, rfl⟩
  comments := rfl
  below := by
    intro u hu
    rw [Skipping.skip, Tree.ofChildren, h.row_eq, Tree.nodesRow, Tree.nodes, Tree.nodesRow_append] at hu
    simp only [Tree.nodesRow, List.append_nil, List.cons_append, List.mem_cons, List.mem_append] at hu
    rcases hu with rfl | before | last
    · exact .inl rfl
    · exact h.below u (by simpa [Tree.nodesRow] using before)
    · exact (Strays.start span).below u (by simpa [Tree.nodesRow] using last)

end Skipping

/-- Further closing parentheses join those that are being skipped. -/
theorem Progress.foldl_closings {u : Stack} (rested : u.Rested) {k : Skipping} {start stop : Position}
    (h : k.Strays start stop) (n : Nat) :
    ∃ k', (Lexer.closings stop n).foldl read ⟨u, some k⟩ = ⟨u, some k'⟩ ∧
      k'.Strays start (stop.after (List.replicate n ')')) := by
  induction n generalizing k stop with
  | zero => exact ⟨k, rfl, h⟩
  | succ n ih =>
      obtain ⟨k', reads, strays⟩ := ih (h.skip ⟨stop, stop.next ')'⟩)
      refine ⟨k', ?_, strays⟩
      rw [Lexer.closings, List.foldl_cons, ← reads]
      congr 1
      unfold read resume
      simp only [rested.shift?_closing]
      rfl

/-! ## Reading on -/

theorem Stack.pushAll_concat (s : Stack) (state : State) (row : List Tree) (t : Tree) :
    pushAll s state (row ++ [t]) = ⟨t, state⟩ :: pushAll s state row := by
  rw [pushAll, List.foldl_append]
  rfl

/-- An extra after what is given up stands on top of the error. -/
theorem Stack.pushError_concat (s : Stack) (row : List Tree) {t : Tree} (extra : t.isExtra = true) :
    s.pushError (row ++ [t]) = ⟨t, s.state⟩ :: s.pushError row := by
  unfold pushError
  simp only [← List.append_assoc, Tree.splitTrailing_concat _ extra, pushAll_concat]

namespace Progress

variable {u : Stack} {row : List Tree}

/-- Where no list is open, reading on after skipping is reading on after an error, but for comments, as
long as nothing else comes. -/
theorem foldl_resume (rested : u.Rested) {ts : List Token} (ending : ∀ t ∈ ts, t.kind ≠ .ending)
    (lexable : ∀ t ∈ ts, t.kind ≠ .unlexable)
    (balanced : nesting? 0 (ts.map (·.kind.toSymbol)) ≠ none) {k : Skipping}
    (stays : (u.pushError k.row).state = u.state) :
    ts.foldl read ⟨u, some k⟩ = ts.foldl read ⟨u.pushError k.row, none⟩ ∨
      ∃ k' : Skipping, ts.foldl read ⟨u, some k⟩ = ⟨u, some k'⟩ ∧
        ts.foldl read ⟨u.pushError k.row, none⟩ = ⟨u.pushError k'.row, none⟩ ∧
        k'.row = k.row ++ ts.map .ofToken ∧ ∀ t ∈ ts, t.kind = .comment := by
  induction ts generalizing k with
  | nil => exact .inr ⟨k, rfl, rfl, (List.append_nil _).symm, by simp⟩
  | cons t ts ih =>
      rw [List.foldl_cons, List.foldl_cons]
      by_cases comment : t.kind = .comment
      · have extra : (Tree.ofToken t).isExtra = true := by simp [Tree.ofToken, Tree.isExtra, comment]
        have longer : (k.comment t).row = k.row ++ [.ofToken t] := rfl
        have skips : read ⟨u, some k⟩ t = ⟨u, some (k.comment t)⟩ := by
          simp only [read, resume, if_pos comment]
        have takes : read ⟨u.pushError k.row, none⟩ t = ⟨u.pushError (k.comment t).row, none⟩ := by
          rw [longer, Stack.pushError_concat _ _ extra]
          simp only [read, readToken, if_pos comment, stays]
        have level : t.kind.toSymbol.level? 0 = some 0 := by rw [comment]; rfl
        rw [List.map_cons, nesting?_cons, level, Option.bind_some] at balanced
        have stays' : (u.pushError (k.comment t).row).state = u.state := by
          rw [longer, Stack.pushError_concat _ _ extra]
          rfl
        rw [skips, takes]
        rcases ih (fun v hv => ending v (List.mem_cons_of_mem _ hv))
            (fun v hv => lexable v (List.mem_cons_of_mem _ hv)) balanced stays' with
          same | ⟨k', reads, reads', all, comments⟩
        · exact .inl same
        · refine .inr ⟨k', reads, reads', ?_, List.forall_mem_cons.2 ⟨comment, comments⟩⟩
          rw [all, longer, List.append_assoc]
          rfl
      · -- the first token that is no comment begins an element of the file
        left
        congr 1
        have inside := ending t List.mem_cons_self
        have rested' : (u.pushError k.row).Rested := by rwa [Stack.Rested, stays]
        have opens : t.kind ≠ .closing := by
          intro closing
          rw [List.map_cons, nesting?_cons, closing] at balanced
          exact balanced rfl
        obtain ⟨next, shift⟩ := State.shift?_isSome (rested.reduction? inside)
          (by rcases rested with state | state <;> rw [state] <;> simp) inside comment
          (lexable t List.mem_cons_self) fun closing => absurd closing opens
        have shift' : (u.pushError k.row).state.shift? t.kind = some next := by rwa [stays]
        simp only [read, resume, readToken, if_neg comment, shift, rested'.settle inside, shift']

end Progress

/-! ## The error -/

/-- A stretch from one token of a text to another is no longer than that from the first to the end. -/
theorem Lexer.stretch_le {text : List Char} {first t u : Token}
    (head : (tokens text).head? = some first) (ht : t ∈ tokens text) (hu : u ∈ tokens text) :
    Cost.stretch ⟨t.span.start, u.span.stop⟩ ≤
      Cost.stretch ⟨first.span.start, (endToken text).span.stop⟩ := by
  have begins : first.span.start.byte ≤ t.span.start.byte ∧ first.span.start.row ≤ t.span.start.row := by
    obtain ⟨rest, split⟩ := List.head?_eq_some_iff.1 head
    have placed := tokens_placed text first (List.mem_of_head? head)
    have ordered := tokens_follow text
    rw [split] at ht ordered
    rcases List.mem_cons.1 ht with rfl | later
    · exact ⟨Nat.le_refl _, Nat.le_refl _⟩
    · obtain ⟨byte, row⟩ := (List.pairwise_cons.1 ordered).1 t later
      have width := placed.start_lt
      have down := placed.row_le
      exact ⟨by omega, by omega⟩
  have ends : u.span.stop.byte ≤ (endToken text).span.stop.byte ∧
      u.span.stop.row ≤ (endToken text).span.stop.row := by
    obtain ⟨word, before, after, split, span⟩ := exists_spells hu
    have stop : (endToken text).span.stop = u.span.stop.after after := by
      rw [span, ← Position.after_append, ← split]
      rfl
    have rows := u.span.stop.row_le_after after
    rw [stop, Position.byte_after]
    exact ⟨by omega, rows⟩
  simp only [Cost.stretch, Span.bytes, Span.rows, Cost.skippedByte, Cost.skippedLine]
  omega

theorem Stack.Clean.takeError {s : Stack} (clean : s.Clean) : s.takeError = ([], s) := by
  cases s with
  | nil => rfl
  | cons f s =>
      obtain ⟨tree, state⟩ := f
      have top : tree.Clean := clean tree (by simp)
      cases top with
      | leaf lexable => rfl
      | node below => rfl

namespace Skipping.Strays

variable {k : Skipping} {start stop : Position} (h : k.Strays start stop)
include h

theorem isSkipped_run : k.run.isSkipped = true := by
  obtain ⟨row, run⟩ := h.run
  rw [run]
  rfl

/-- What has been skipped becomes one error on top of a stack without errors. -/
theorem trees_pushError {u : Stack} (clean : u.Clean) :
    (u.pushError k.row).trees = u.trees ++ [.node (.error false) ⟨start, stop⟩ [k.run]] := by
  obtain ⟨row, run⟩ := h.run
  rw [h.row_eq, Stack.trees_pushError_run clean.takeError h.isSkipped_run (by simp), run]
  rfl

theorem stray : Tree.Stray [k.run] := by
  intro u hu
  refine (h.below u hu).imp id ?_
  rintro ⟨span, rfl⟩
  rfl

/-- The error is the only thing that is wrong with it. -/
theorem below_error : Diagnostic.below [.node (.error false) ⟨start, stop⟩ [k.run]] =
    [⟨.syntaxError, ⟨start, stop⟩⟩] := by
  have quiet : Diagnostic.below [k.run] = [] := by
    apply List.filterMap_eq_nil_iff.2
    intro u hu
    obtain ⟨mem, visible⟩ := List.mem_filter.1 hu
    rcases h.below u mem with skipped | ⟨span, rfl⟩
    · rw [Tree.isVisible, skipped] at visible
      cases visible
    · rfl
  rw [Diagnostic.below_error, quiet]

theorem errorCosts_error : Tree.errorCosts [.node (.error false) ⟨start, stop⟩ [k.run]] =
    Tree.skipCosts [k.run] + Cost.recovery + Cost.stretch ⟨start, stop⟩ := by
  rw [Tree.errorCosts_error_run h.isSkipped_run, Tree.skipCosts]
  rfl

end Skipping.Strays

namespace Completion

/-- At the end of a text giving up just what has been skipped is preferred to giving up all of it. -/
theorem abandon_eq {ending : Token} {u : Stack} {k : Skipping} {t : Tree} (rested : u.Rested)
    (whole : whole? (u.pushError k.row) ending = some t)
    (cheap : t.errorCost ≤ (broken (u.trees ++ k.row) ending).errorCost) :
    abandon ending u k = some t := by
  have ends : u.state.endsWell = true := by rcases rested with state | state <;> rw [state] <;> rfl
  have back : (u.suffixes (reach - 1)).find? (·.state.endsWell) = some u := by
    rw [reach, suffixes]
    cases u.peel? <;> simp [ends]
  have none : u.above u = [] := by simpa using above_append [] u
  have dear := le_broken_errorCost (u.trees ++ k.row) ending
  have paid : 0 < Cost.recovery := by decide
  rw [abandon, back]
  simp only [Option.bind_some, givenUp?, none, List.nil_append, whole, keep]
  rw [Tree.prefer]
  split
  · rfl
  · rw [if_neg (by omega), if_pos (by omega)]

/-- Once closing parentheses have been skipped outside of all lists, the rest of the text is read on, and
they are the only error. -/
theorem finish_stray {ending : Token} {u : Stack} {before : List Token} {k : Skipping}
    {start stop : Position} (hu : u.Reads before 0) (hk : k.Formed) (rested : u.Rested)
    (strays : k.Strays start stop) (he : ending.kind = .ending)
    {after : List Token} (inside : ∀ t ∈ after, t.kind ≠ .ending)
    (lexable : ∀ t ∈ after, t.kind ≠ .unlexable)
    (balanced : nesting? 0 (after.map (·.kind.toSymbol)) = some 0)
    (wide : Cost.stretch ⟨start, stop⟩ ≤
      Cost.stretch (broken (u.trees ++ (k.row ++ after.map .ofToken)) ending).span) :
    ∃ t, finish ending (after.foldl Progress.read ⟨u, some k⟩) = some t ∧ t.Mended ∧
      Tree.keptRow t.children = before ++ after ++ [ending] ∧
      Diagnostic.all t = [⟨.syntaxError, ⟨start, stop⟩⟩] := by
  obtain ⟨pushed, stays⟩ := hu.held.pushError hk.row ⟨k.run, List.mem_cons_self, hk.counts⟩
  have depth : (u.pushError k.row).depth? = some 0 := by
    have error : Tree.counted [.node (.error false) ⟨start, stop⟩ [k.run]] = [] := rfl
    rw [Stack.depth?, strays.trees_pushError hu.clean, Tree.counted_append, error, List.append_nil]
    exact hu.depth?
  obtain ⟨s, reads, grows⟩ := Progress.foldl_read_grows pushed inside lexable (by
    rw [depth, Option.bind_some, balanced]
    simp)
  have held : Progress.Holds ⟨s, none⟩ _ :=
    reads ▸ Progress.foldl_read_holds (p := ⟨u.pushError k.row, none⟩) pushed inside
  have opened : s.Open _ := held
  obtain ⟨t, whole⟩ := exists_whole? opened (by rw [grows.depth?, depth, Option.bind_some, balanced])
  obtain ⟨keeps, mends, diagnostics, price⟩ := whole?_amounts opened.toHolds he whole
  -- what the stack amounts to is what the stack before the error, the error and the rest do
  have parts {α : Type} {op : α → α → α} {f : List Tree → α} (gathers : Gathers op f) :
      f s.trees = op (op (f u.trees) (f [.node (.error false) ⟨start, stop⟩ [k.run]]))
        (f (after.map .ofToken)) := by
    rw [gathers.grows grows, strays.trees_pushError hu.clean, gathers.append, gathers.append]
  have cleanAfter : ∀ v ∈ after.map Tree.ofToken, v.Clean := by
    intro v hv
    obtain ⟨token, mem, rfl⟩ := List.mem_map.1 hv
    exact .leaf (lexable token mem)
  have cost : t.errorCost =
      Tree.skipCosts k.row + Cost.recovery + Cost.stretch ⟨start, stop⟩ := by
    rw [price, parts errorCosts_gathers, Tree.errorCosts_clean hu.clean, Tree.errorCosts_clean cleanAfter,
      strays.errorCosts_error, strays.row_eq, Nat.zero_add, Nat.add_zero]
  refine ⟨t, ?_, mends ((parts mended_gathers).mpr ⟨⟨?_, ?_⟩, ?_⟩), ?_, ?_⟩
  · rcases Progress.foldl_resume rested inside lexable (by rw [balanced]; simp) stays with
      same | ⟨k', skips, takes, rest, -⟩
    · rw [same, reads]
      simp only [finish, whole]
    · have same : s = u.pushError k'.row := congrArg Progress.stack (reads.symm.trans takes)
      rw [skips]
      apply abandon_eq rested (same ▸ whole)
      have dear := le_broken_errorCost (u.trees ++ k'.row) ending
      rw [rest, Tree.skipCosts_append, Tree.skipCosts_append] at dear
      rw [cost, rest]
      omega
  · exact fun v hv => (hu.clean v hv).mended
  · intro v hv
    exact List.mem_singleton.1 hv ▸ .stray rfl strays.stray
  · exact fun v hv => (cleanAfter v hv).mended
  · have broken : (Label.error false).isBroken = true := rfl
    rw [keeps, parts kept_gathers, hu.kept, Tree.keptRow_ofToken, Tree.keptRow_cons,
      Tree.kept_broken broken, Tree.keptRow_nil, List.append_nil, List.append_nil]
  · rw [diagnostics, parts diagnostics_gathers, Diagnostic.below_clean hu.clean,
      Diagnostic.below_clean cleanAfter, strays.below_error]
    rfl

end Completion

/-- What stretches from one token of a text to another stretches no further than all of the text as one
error. -/
theorem Completion.stretch_le_broken {text : List Char} {u : Stack} {row more : List Tree}
    (hu : u.Open row) (formed : ∀ t ∈ more, t.Formed ∧ t.isPart = true)
    (held : row ++ Tree.leavesRow more = (Lexer.tokens text).map .ofToken) {t v : Token}
    (ht : t ∈ Lexer.tokens text) (hv : v ∈ Lexer.tokens text) :
    Cost.stretch ⟨t.span.start, v.span.stop⟩ ≤
      Cost.stretch (broken (u.trees ++ more) (Lexer.endToken text)).span := by
  have whole : Tree.Whole (Lexer.endToken text) _ (broken (u.trees ++ more) (Lexer.endToken text)) :=
    broken_whole hu formed
  obtain ⟨first, last, head, final, span⟩ := whole.extent
  rw [whole.leaves, held] at head final
  rw [List.getLast?_concat] at final
  obtain rfl := Option.some.inj final
  obtain ⟨token, first', rfl⟩ :
      ∃ token, (Lexer.tokens text).head? = some token ∧ .ofToken token = first := by
    rw [List.head?_append_of_ne_nil _ (by simpa using List.ne_nil_of_mem ht), List.head?_map] at head
    exact Option.map_eq_some_iff.1 head
  rw [span]
  exact Lexer.stretch_le first' ht hv

/-- The tree of a text in which closing parentheses stand between two parts whose parentheses are
balanced: they are one error, and nothing else is wrong. -/
theorem parse_stray {text : List Char} {before after : List Token} {p : Position} {n : Nat}
    (split : Lexer.tokens text = before ++ (Lexer.closings p (n + 1) ++ after))
    (lexable : ∀ t ∈ before ++ after, t.kind ≠ .unlexable)
    (balanced : nesting? 0 (before.map (·.kind.toSymbol)) = some 0)
    (balanced' : nesting? 0 (after.map (·.kind.toSymbol)) = some 0) :
    (parse text).Mended ∧
      Tree.keptRow (parse text).children = before ++ after ++ [Lexer.endToken text] ∧
      Diagnostic.all (parse text) =
        [⟨.syntaxError, ⟨p, p.after (List.replicate (n + 1) ')')⟩⟩] := by
  have inside : ∀ t ∈ before ++ (Lexer.closings p (n + 1) ++ after), t.kind ≠ .ending :=
    split ▸ Lexer.tokens_ne_ending text
  obtain ⟨insideBefore, insideRest⟩ := List.forall_mem_append.1 inside
  obtain ⟨insideClosings, insideAfter⟩ := List.forall_mem_append.1 insideRest
  obtain ⟨lexableBefore, lexableAfter⟩ := List.forall_mem_append.1 lexable
  -- the tokens before the parentheses, and then these
  obtain ⟨s, readsBefore, hs⟩ := Progress.exists_reads insideBefore lexableBefore balanced
  obtain ⟨u, first, hu, rested⟩ := Progress.readToken_closing hs ⟨p, p.next ')'⟩
  obtain ⟨k, skips, strays⟩ := Progress.foldl_closings rested (Skipping.Strays.start ⟨p, p.next ')'⟩) n
  have readsClosings : (Lexer.closings p (n + 1)).foldl Progress.read ⟨s, none⟩ = ⟨u, some k⟩ := by
    rw [Lexer.closings, List.foldl_cons, ← skips, ← first]
    rfl
  obtain ⟨hk, row, opened, leaves⟩ : Progress.Holds ⟨u, some k⟩ _ :=
    readsClosings ▸ Progress.foldl_read_holds (p := ⟨s, none⟩) hs.held insideClosings
  have wide : Cost.stretch ⟨p, p.after (List.replicate (n + 1) ')')⟩ ≤ Cost.stretch
      (Completion.broken (u.trees ++ (k.row ++ after.map .ofToken)) (Lexer.endToken text)).span := by
    have formed : ∀ t ∈ k.row ++ after.map Tree.ofToken, t.Formed ∧ t.isPart = true := by
      intro t ht
      rcases List.mem_append.1 ht with skipped | later
      · exact hk.row t skipped
      · obtain ⟨token, mem, rfl⟩ := List.mem_map.1 later
        exact ⟨.ofToken (insideAfter token mem), rfl⟩
    have tokens : row ++ Tree.leavesRow (k.row ++ after.map .ofToken) =
        (Lexer.tokens text).map .ofToken := by
      rw [Tree.leavesRow_append, Tree.leavesRow_ofToken, ← List.append_assoc, ← leaves, split]
      simp
    obtain ⟨last, mem, stop⟩ := Lexer.exists_last_closing p n
    rw [← stop]
    exact Completion.stretch_le_broken (t := ⟨.closing, ⟨p, p.next ')'⟩⟩) opened formed tokens
      (by rw [split]; simp [Lexer.closings]) (by rw [split]; simp [mem])
  -- the tokens after them
  have ends : (Lexer.endToken text).kind = .ending := rfl
  obtain ⟨t, finish, mended, keeps, wrong⟩ :=
    Completion.finish_stray hu hk rested strays ends insideAfter lexableAfter balanced' wide
  have parsed : parse text = t := by
    rw [Progress.readAll] at readsBefore
    rw [parse, parse?, split, Progress.readAll, List.foldl_append, List.foldl_append, readsBefore,
      readsClosings, finish]
    rfl
  rw [parsed]
  exact ⟨mended, keeps, wrong⟩

/-- The tree of a text with a line of closing parentheses between two texts without errors. -/
theorem parse_joined {a b : List Char} (k : Nat) (clean : (parse a).Clean) {after : List Token}
    (lexable : ∀ t ∈ after, t.kind ≠ .unlexable)
    (balanced : nesting? 0 (after.map (·.kind.toSymbol)) = some 0)
    (tokens : Lexer.tokens b = Lexer.tokens a ++
      (Lexer.closings (Position.origin.after (a ++ ['\n'])) k ++ after)) :
    (parse b).Mended ∧
      Tree.keptRow (parse b).children = Lexer.tokens a ++ after ++ [Lexer.endToken b] ∧
      Diagnostic.all (parse b) =
        if k = 0 then []
        else [⟨.syntaxError, ⟨Position.origin.after (a ++ ['\n']),
          Position.origin.after (a ++ ['\n'] ++ List.replicate k ')')⟩⟩] := by
  obtain ⟨lexableA, balancedA⟩ := parse_clean_iff_tokens.1 clean
  have all := List.forall_mem_append.2 ⟨lexableA, lexable⟩
  cases k with
  | zero =>
      rw [Lexer.closings, List.nil_append] at tokens
      have cleanB : (parse b).Clean := by
        rw [parse_clean_iff_tokens, tokens, List.map_append, nesting?_append, balancedA]
        exact ⟨all, balanced⟩
      obtain ⟨n, whole⟩ := parse_repaired b
      exact ⟨cleanB.mended, by rw [keptRow_parse cleanB, tokens],
        by rw [if_pos rfl, (whole.all_eq_nil_iff rfl).2 cleanB]⟩
  | succ n =>
      obtain ⟨mended, kept, wrong⟩ := parse_stray tokens all balancedA balanced
      exact ⟨mended, kept, by rw [wrong, if_neg (by simp), ← Position.after_append]⟩

/-- The definitions of a text that keeps the tokens of one text without errors, and further on those of
another one. -/
theorem definitions_joined {a between before b : List Char} {lead own rest : List Token} {rows : Nat}
    (shape : before = a ++ between) (clean : (parse a).Clean) (clean' : (parse b).Clean)
    (one : Lexer.IsLead lead) (one' : Lexer.IsLead own) (alone : Lexer.tokens b = own ++ rest)
    (mended : (parse (before ++ b)).Mended)
    (kept : Tree.keptRow (parse (before ++ b)).children =
      Lexer.tokens a ++ (lead ++ rest.map (Token.moved (Position.shifted (byteLength before) rows))) ++
        [Lexer.endToken (before ++ b)]) :
    Definition.all (before ++ b) (parse (before ++ b)) =
      Definition.all a (parse a) ++
        (Definition.all b (parse b)).map (Definition.moved (Position.shifted (byteLength before) rows)) := by
  generalize further_eq : Position.shifted (byteLength before) rows = further at kept ⊢
  have items := tokensRow_itemsRow clean
  have items' := tokensRow_itemsRow clean'
  obtain ⟨front, word, bare⟩ := one.exists_items
  obtain ⟨row, tail, lists⟩ := one'.exists_rest (items'.trans alone)
  have forest : Tree.keptRow (parse (before ++ b)).children =
      Item.tokensRow (Tree.itemsRow (parse a).children ++ (front ++ Item.movedRow further row)) ++
        [Lexer.endToken (before ++ b)] := by
    rw [kept, Item.tokensRow_append, Item.tokensRow_append, items, word, Item.tokensRow_moved, tail]
  have within : ∀ t ∈ Item.tokensRow (Tree.itemsRow (parse a).children),
      t.span.stop.byte ≤ byteLength a := by
    rw [items]
    exact fun t ht => Lexer.stop_le ht
  have first : Item.definitions (before ++ b) (Tree.itemsRow (parse a).children) =
      Definition.all a (parse a) := by
    rw [definitions_of_kept clean.mended (itemsRow_parse clean.mended).1,
      ← Item.definitions_extend within (between ++ b), shape, List.append_assoc]
  have none : Item.definitions (before ++ b) front = [] := by
    rw [Item.definitions, bare, List.filterMap_nil]
  have second : Item.definitions (before ++ b) (Item.movedRow further row) =
      (Definition.all b (parse b)).map (Definition.moved further) := by
    rw [definitions_of_kept clean'.mended (itemsRow_parse clean'.mended).1, Item.definitions_moved,
      Item.definitions, Item.definitions, lists]
    exact fun s _ => further_eq ▸ Span.cut_shifted s before b rows
  rw [definitions_of_kept mended forest, Item.definitions_append, Item.definitions_append, first, none,
    second, List.nil_append]

end MettaSyntax
