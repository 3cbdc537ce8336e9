import MettaSyntax.Proofs.Placement
import MettaSyntax.Proofs.Repairs

/-! # Skipping on is dearer than going back

Where a token comes that can be shifted after others have been skipped, two ways are open: what was
skipped becomes an error before the token, or the token is skipped as well.  A run of skipped tokens
stands for the stretch from the first of them to the last, and there is never an error below it that it
would become a part of.  So the second way costs a tree more than the first, and the bytes of the token
besides; `Progress.resume` takes the first. -/

set_option autoImplicit false

namespace MettaSyntax

/-! ## The top of the stack -/

namespace Stack

/-- No error is on top of the stack. -/
def Clear (s : Stack) : Prop :=
  ∀ t ∈ s.trees.getLast?, t.isError = false

theorem Clear.cons {f : Frame} (h : f.tree.isError = false) (s : Stack) : Clear (f :: s) := by
  simp [Clear, h]

theorem Clear.takeError {s : Stack} (h : s.Clear) : s.takeError = ([], s) := by
  unfold Stack.takeError
  split
  · next whole span row state below =>
      have broken := h (.node (.error whole) span row) (by simp)
      cases broken
  · rfl

/-- A reduction puts a production on top, or leaves the extras there that are there. -/
theorem Clear.reduced {s s' : Stack} {p : Production} (h : s.Clear) (reduced : Reduced s p s') :
    s'.Clear := by
  obtain ⟨below, body, extras, next, rfl, split, -, -, -, -⟩ := reduced
  intro t ht
  rw [trees_pushAll, trees_cons] at ht
  cases last : extras.getLast? with
  | none =>
      obtain rfl := List.getLast?_eq_none_iff.1 last
      simp only [List.append_nil, List.getLast?_concat, Option.mem_def, Option.some.injEq] at ht
      rw [← ht]
      rfl
  | some u =>
      have same (row : List Tree) : (row ++ extras).getLast? = some u := by
        rw [List.getLast?_append, last, Option.some_or]
      rw [same] at ht
      apply h
      rwa [split, same]

end Stack

/-! ## What is being skipped -/

/-- A run of skipped tokens stands for the stretch from one of the given tokens to another, and comments
are all that follows it. -/
structure Skipping.Spans (k : Skipping) (read : List Token) : Prop where
  run : k.run.isSkipped = true
  comments : ∀ u ∈ k.comments, ∃ t : Token, t.kind = .comment ∧ u = .ofToken t
  ends : ∃ first ∈ read, ∃ last ∈ read, k.run.span = ⟨first.span.start, last.span.stop⟩

namespace Skipping

variable {k : Skipping} {read : List Token} {t : Token}

theorem Spans.start (read : List Token) (t : Token) : (start t).Spans (read ++ [t]) where
  run := rfl
  comments := by simp [Skipping.start]
  ends := ⟨t, by simp, t, by simp, rfl⟩

theorem Spans.comment (h : k.Spans read) (comment : t.kind = .comment) :
    (k.comment t).Spans (read ++ [t]) where
  run := h.run
  comments := by
    intro u hu
    rcases List.mem_append.1 hu with earlier | last
    · exact h.comments u earlier
    · exact ⟨t, comment, List.mem_singleton.1 last⟩
  ends := by
    obtain ⟨first, hf, last, hl, span⟩ := h.ends
    exact ⟨first, List.mem_append_left _ hf, last, List.mem_append_left _ hl, span⟩

/-- A token that is skipped as well makes the run longer, up to the end of the token. -/
theorem span_skip (k : Skipping) (t : Token) :
    (k.skip t).run.span = ⟨k.run.span.start, t.span.stop⟩ := by
  have last : (k.row ++ [(Skipping.start t).run]).getLast? = some (Skipping.start t).run :=
    List.getLast?_concat
  rw [skip, Tree.ofChildren, Tree.span, Tree.hull, last]
  rfl

theorem Spans.skip (h : k.Spans read) (t : Token) : (k.skip t).Spans (read ++ [t]) where
  run := rfl
  comments := by simp [Skipping.skip]
  ends := by
    obtain ⟨first, hf, last, hl, span⟩ := h.ends
    refine ⟨first, List.mem_append_left _ hf, t, by simp, ?_⟩
    rw [span_skip, span]

theorem Spans.extra (h : k.Spans read) : ∀ u ∈ k.comments, u.isExtra = true := by
  intro u hu
  obtain ⟨t, comment, rfl⟩ := h.comments u hu
  simp [Tree.ofToken, Tree.isExtra, comment]

theorem Spans.comments_free (h : k.Spans read) : Tree.errorCosts k.comments = 0 := by
  apply Tree.errorCosts_clean
  intro u hu
  obtain ⟨t, comment, rfl⟩ := h.comments u hu
  exact .leaf (by simp [comment])

/-- What was skipped costs, once it is an error, what it costs to skip its tokens and its stretch. -/
theorem Spans.errorCosts_pushError (h : k.Spans read) {s : Stack} (clear : s.Clear) :
    Tree.errorCosts (s.pushError k.row).trees =
      Tree.errorCosts s.trees + (Tree.skipCost k.run + Cost.recovery + Cost.stretch k.run.span) := by
  rw [row, Stack.trees_pushError_run clear.takeError h.run h.extra, Tree.errorCosts_append,
    Tree.errorCosts_error_run h.run, h.comments_free, Nat.add_zero]

/-- A run that takes in another token costs what it costs to skip the tokens before it, that token, and
the longer stretch. -/
theorem Spans.errorCost_skip (h : k.Spans read) (visible : (Tree.ofToken t).isVisible = true) :
    (k.skip t).run.errorCost = Tree.skipCost k.run + Cost.skippedTree + Cost.recovery +
      Cost.stretch (k.skip t).run.span := by
  have free : Tree.errorCosts (k.row ++ [(Skipping.start t).run]) = 0 := by
    rw [Tree.errorCosts_append, row, Tree.errorCosts_skipped h.run, h.comments_free,
      Tree.errorCosts_skipped rfl]
    rfl
  have one : Tree.skipCosts [(Skipping.start t).run] = Cost.skippedTree := by
    have count : (Skipping.start t).run.visibleChildCount = 1 := by
      rw [Skipping.start, Tree.ofChildren, Tree.visibleChildCount, Tree.visibleCount, if_pos visible]
      rfl
    rw [Tree.skipCosts, Tree.skipCost, count]
    rfl
  have tokens : Tree.skipCosts (k.row ++ [(Skipping.start t).run]) =
      Tree.skipCost k.run + Cost.skippedTree := by
    rw [Tree.skipCosts_append, row, Tree.skipCosts, Tree.skipCosts_extras h.extra, one, Nat.add_zero]
  have broken : Label.skipped.isBroken = true := rfl
  rw [Skipping.skip, Tree.ofChildren, Tree.errorCost, if_pos broken, free, tokens, Nat.zero_add]
  rfl

section Order

variable {text : List Char} {before after : List Token} (tokens : Lexer.tokens text = before ++ t :: after)
include tokens

/-- Each token that has been read ends at or before the place where the next one begins. -/
theorem stop_le_start {u : Token} (hu : u ∈ before) :
    u.span.stop.byte ≤ t.span.start.byte ∧ u.span.stop.row ≤ t.span.start.row := by
  have ordered := Lexer.tokens_follow text
  rw [tokens] at ordered
  exact (List.pairwise_append.1 ordered).2.2 u hu t List.mem_cons_self

/-- The next token makes the stretch longer, and it does not end on an earlier row. -/
theorem Spans.stretch_lt (h : k.Spans before) :
    Cost.stretch k.run.span < Cost.stretch (k.skip t).run.span := by
  have placed : ∀ u ∈ before ++ t :: after, Lexer.Placed text u := tokens ▸ Lexer.tokens_placed text
  obtain ⟨first, hf, last, hl, span⟩ := h.ends
  have next : Lexer.Placed text t := placed t (by simp)
  have inside := next.start_lt
  have rows := next.row_le
  have begins := (placed first (List.mem_append_left _ hf)).start_lt
  obtain ⟨firstByte, -⟩ := stop_le_start tokens hf
  obtain ⟨lastByte, lastRow⟩ := stop_le_start tokens hl
  have longer : last.span.stop.byte - first.span.start.byte <
      t.span.stop.byte - first.span.start.byte := by
    omega
  have lower : last.span.stop.row - first.span.start.row ≤ t.span.stop.row - first.span.start.row := by
    omega
  rw [span_skip, span, Cost.stretch, Cost.stretch]
  have bytes := Nat.mul_lt_mul_of_pos_left longer (k := Cost.skippedByte) (by decide)
  have lines := Nat.mul_le_mul_left Cost.skippedLine lower
  exact Nat.add_lt_add_of_lt_of_le bytes lines

end Order

end Skipping

/-! ## While tokens are read -/

namespace Progress

/-- No error is on top of the stack, since a token goes on top of each at once, and what is being skipped
is a stretch of the tokens that have been read. -/
structure Sound (p : Progress) (read : List Token) : Prop where
  clear : p.stack.Clear
  spans : ∀ k ∈ p.skipping, k.Spans read

/-- What a progress costs so far: the errors on the stack, and the run that is being skipped. -/
def cost (p : Progress) : Nat :=
  Tree.errorCosts p.stack.trees + p.skipping.elim 0 (·.run.errorCost)

section Steps

variable {s : Stack} {k : Skipping} {row : List Tree} {read : List Token} {t : Token}

theorem isError_ofToken (h : t.kind ≠ .unlexable) : (Tree.ofToken t).isError = false := by
  obtain ⟨kind, span⟩ := t
  cases kind with
  | unlexable => exact absurd rfl h
  | _ => rfl

/-- A token on top of the stack is no error. -/
theorem Sound.token (h : t.kind ≠ .unlexable) (s : Stack) (state : State) (read : List Token) :
    Sound ⟨⟨.ofToken t, state⟩ :: s, none⟩ read :=
  ⟨.cons (isError_ofToken h) s, fun _ none => nomatch none⟩

theorem Sound.start : Progress.start.Sound [] :=
  ⟨by simp [Progress.start, Stack.Clear], by simp [Progress.start]⟩

theorem Sound.skipping (clear : s.Clear) (spans : k.Spans read) : Sound ⟨s, some k⟩ read :=
  ⟨clear, fun _ same => Option.some.inj same ▸ spans⟩

theorem readToken_sound (hs : s.Open row) (clear : s.Clear) :
    (readToken s t).Sound (read ++ [t]) := by
  unfold readToken
  by_cases comment : t.kind = .comment
  · rw [if_pos comment]
    exact .token (by simp [comment]) s _ _
  · rw [if_neg comment]
    have held := hs.toHolds.settle t.kind
    have settled : (s.settle t.kind).Clear :=
      hs.toHolds.settle_of (P := Stack.Clear) (fun _ _ _ => Stack.Clear.reduced) clear t.kind
    cases hn : (s.settle t.kind).state.shift? t.kind with
    | some next =>
        simp only [hn]
        exact .token (State.ne_of_shift? hn).2.2 _ _ _
    | none =>
        simp only [hn]
        have completed : (s.settle t.kind).complete.Clear :=
          held.complete_of (P := Stack.Clear) (fun _ _ _ => Stack.Clear.reduced) settled
        exact .skipping completed (.start read t)

theorem resume_sound (clear : s.Clear) (spans : k.Spans read) :
    (resume s k t).Sound (read ++ [t]) := by
  unfold resume
  by_cases comment : t.kind = .comment
  · rw [if_pos comment]
    exact .skipping clear (spans.comment comment)
  · rw [if_neg comment]
    cases hn : s.state.shift? t.kind with
    | some next => exact .token (State.ne_of_shift? hn).2.2 _ _ _
    | none => exact .skipping clear (spans.skip t)

theorem read_sound {p : Progress} (hp : p.Holds row) (sound : p.Sound read) :
    (p.read t).Sound (read ++ [t]) := by
  obtain ⟨s, skipping⟩ := p
  cases skipping with
  | none => exact readToken_sound hp sound.clear
  | some k => exact resume_sound sound.clear (sound.spans k rfl)

theorem foldl_read_sound {p : Progress} (hp : p.Holds row) (sound : p.Sound read)
    {rest : List Token} (h : ∀ t ∈ rest, t.kind ≠ .ending) :
    (rest.foldl Progress.read p).Sound (read ++ rest) := by
  induction rest generalizing p row read with
  | nil => rwa [List.append_nil]
  | cons t rest ih =>
      obtain ⟨inside, later⟩ := List.forall_mem_cons.1 h
      rw [List.append_cons]
      exact ih (read_holds hp inside) (read_sound hp sound) later

end Steps

/-- Where a token of a text can be shifted after others have been skipped, it is dearer to skip the token
as well than to make what was skipped an error: by a tree, and by the bytes of the token. -/
theorem cost_resume_lt {text : List Char} {before after : List Token} {t : Token}
    (tokens : Lexer.tokens text = before ++ t :: after) {s : Stack} {k : Skipping}
    (reached : readAll before = ⟨s, some k⟩) {next : State}
    (shifts : s.state.shift? t.kind = some next) :
    (resume s k t).cost + Cost.skippedTree < cost ⟨s, some (k.skip t)⟩ := by
  obtain ⟨comment, ending, readable⟩ := State.ne_of_shift? shifts
  have inside : ∀ u ∈ before, u.kind ≠ .ending := by
    intro u hu
    exact Lexer.tokens_ne_ending text u (tokens ▸ List.mem_append_left _ hu)
  have sound : Sound ⟨s, some k⟩ before := by
    have all : (readAll before).Sound ([] ++ before) := foldl_read_sound .start .start inside
    rwa [List.nil_append, reached] at all
  have spans := sound.spans k rfl
  have back : (resume s k t).cost =
      Tree.errorCosts s.trees + (Tree.skipCost k.run + Cost.recovery + Cost.stretch k.run.span) := by
    rw [← spans.errorCosts_pushError sound.clear]
    simp [resume, cost, comment, shifts, Tree.errorCosts_append, Tree.errorCosts, Tree.ofToken,
      Tree.errorCost]
  have on : cost ⟨s, some (k.skip t)⟩ = Tree.errorCosts s.trees + (Tree.skipCost k.run +
      Cost.skippedTree + Cost.recovery + Cost.stretch (k.skip t).run.span) := by
    rw [← spans.errorCost_skip (Tree.visible_of_ne_ending ending)]
    rfl
  have longer := spans.stretch_lt tokens
  rw [back, on]
  omega

/-- After a stray parenthesis a word costs nothing more where it is read, and a tree and two bytes where it
is skipped. -/
example :
    let k : Skipping := .start ⟨.closing, ⟨⟨0, 0, 0⟩, ⟨1, 0, 1⟩⟩⟩
    let t : Token := ⟨.atom .symbol, ⟨⟨2, 0, 2⟩, ⟨3, 0, 3⟩⟩⟩
    (resume [] k t).cost = 601 ∧ cost ⟨[], some (k.skip t)⟩ = 703 := by
  decide

end Progress

end MettaSyntax
