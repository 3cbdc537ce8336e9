import MettaSyntax.Index.Basic
import MettaSyntax.Proofs.Spelling

/-! # The parser one step at a time

A machine that parses a text without any bound on its loops but the one on the trees that may be
compared.  A step scans one token, passes over one character at which no token can be scanned,
completes one production, or begins a round of the search for the cheapest tree, and the machine goes
on for as long as the lexer or the table tells it to.  It fails where a production cannot be
completed, and where there is no tree to choose at the end.  That never happens: on every text the
machine comes to the tree of the text, after a number of steps that grows like the length of the
text. -/

set_option autoImplicit false

namespace MettaSyntax

/-- What productions are being completed for. -/
inductive Goal where
  /-- The token `t` is to be read, and the text `cs` after it. -/
  | token (t : Token) (cs : List Char)
  /-- The token `t`, which could not be read, is to be skipped. -/
  | skip (t : Token) (cs : List Char)
  /-- The text ends. -/
  | ending (e : Token)
  /-- The text ends where a list is open. -/
  | stuck (e : Token)
  /-- A missing token has been supplied to the stack `s`. -/
  | supply (e : Token) (n : Nat) (s : Stack) (best : Option Tree)
  /-- The text ends after the missing token, which led from the stack `s` to `r`. -/
  | supplied (e : Token) (n : Nat) (s r : Stack) (best : Option Tree) (back : Option Stack)
  /-- The text ends after a way back, and then there may be another round. -/
  | gaveUp (e : Token) (best : Option Tree) (again : Option (Nat × Stack))

/-- The production to complete next. -/
def Goal.choose : Goal → State → Option Production
  | .token t _ => (·.reduction? t.kind)
  | .skip _ _ => State.completion?
  | .ending _ => (·.reduction? .ending)
  | .stuck _ => State.completion?
  | .supply _ _ _ _ => State.completion?
  | .supplied _ _ _ _ _ _ => (·.reduction? .ending)
  | .gaveUp _ _ _ => (·.reduction? .ending)

inductive Machine where
  /-- The next token is to be scanned in the text `cs`, which begins at `p`. -/
  | scanning (p : Position) (cs : List Char) (q : Progress)
  /-- No token could be scanned at `start`, nor at `p`, where the text `cs` begins. -/
  | passing (start p : Position) (cs : List Char) (q : Progress)
  | reducing (s : Stack) (goal : Goal)
  /-- A round of comparing trees begins, the first of at most `n`. -/
  | comparing (e : Token) (n : Nat) (s : Stack) (best : Option Tree)
  | accepted (t : Tree)
  | failed

namespace Completion

/-- The tree of a stack on which no production is left to complete at the end of the text. -/
def settled? (s : Stack) (ending : Token) : Option Tree :=
  if s.state.action .ending = some .accept then
    some (.ofChildren (.production .file) .origin (unfold (s.trees ++ [.ofToken ending])))
  else none

theorem whole?_eq_settled? (s : Stack) (ending : Token) :
    whole? s ending = settled? (s.settle .ending) ending := rfl

@[simp] theorem keep_none (best : Option Tree) : keep best none = best := by
  cases best <;> rfl

end Completion

namespace Machine

open Completion

/-! ## Steps -/

/-- Goes on with a token that has been scanned. -/
def take (q : Progress) (t : Token) (cs : List Char) : Machine :=
  match q.skipping with
  | some k => scanning t.span.stop cs (Progress.resume q.stack k t)
  | none =>
      if t.kind = .comment then
        scanning t.span.stop cs ⟨⟨.ofToken t, q.stack.state⟩ :: q.stack, none⟩
      else reducing q.stack (.token t cs)

def conclude : Option Tree → Machine
  | some t => accepted t
  | none => failed

def nextRound (e : Token) (best : Option Tree) : Option (Nat × Stack) → Machine
  | some (n, r) => comparing e n r best
  | none => conclude best

/-- Goes back to a part of the stack `s`, if there is one to go back to. -/
def goBack (e : Token) (s : Stack) (row : List Tree) (best : Option Tree)
    (again : Option (Nat × Stack)) : Option Stack → Machine
  | some below => reducing (below.pushError (s.above below ++ row)) (.gaveUp e best again)
  | none => nextRound e best again

/-- Goes on with a round once it is known what supplying a token leads to. -/
def judge (e : Token) (n : Nat) (s : Stack) (best : Option Tree) (supplied : Option Stack) :
    Machine :=
  let back := wayBack? s supplied best 2 (s.suffixes (reach - 1)).tail
  let best := keep best (some (broken s.trees e))
  if best.any (·.errorCost < cost s + Cost.recovery) then conclude best
  else
    match supplied with
    | some r => reducing r (.supplied e n s r best back)
    | none => goBack e s [] best none back

def round (e : Token) : Nat → Stack → Option Tree → Machine
  | 0, _, best => conclude best
  | n + 1, s, best =>
      match missing? s with
      | some r => reducing r (.supply e n s best)
      | none => judge e n s best none

def atEnd (e : Token) (q : Progress) : Machine :=
  match q.skipping with
  | some k =>
      goBack e q.stack k.row (some (broken (q.stack.trees ++ k.row) e)) none
        ((q.stack.suffixes (reach - 1)).find? (·.state.endsWell))
  | none => reducing q.stack (.ending e)

end Machine

namespace Goal

open Completion

/-- Goes on once no production is left to complete. -/
def next : Goal → Stack → Machine
  | .token t cs, s =>
      match s.state.shift? t.kind with
      | some state => .scanning t.span.stop cs ⟨⟨.ofToken t, state⟩ :: s, none⟩
      | none => .reducing s (.skip t cs)
  | .skip t cs, s => .scanning t.span.stop cs ⟨s, some (.start t)⟩
  | .ending e, s =>
      match settled? s e with
      | some t => .accepted t
      | none => .reducing s (.stuck e)
  | .stuck e, s => .comparing e rounds s none
  | .supply e n s best, r => .judge e n s best (some r)
  | .supplied e n s r best back, u =>
      let whole := settled? u e
      let again := if whole.isNone then some (if back.isSome then n - 1 else n, r) else none
      .goBack e s [] (keep best whole) again back
  | .gaveUp e best again, u => .nextRound e (keep best (settled? u e)) again

end Goal

namespace Machine

open Completion

def step : Machine → Machine
  | scanning p cs q =>
      let start := p.after (cs.takeWhile isSpace)
      match cs.dropWhile isSpace with
      | [] => atEnd ⟨.ending, .empty (p.after cs)⟩ q
      | c :: body =>
          match Lexeme.scan? (c :: body) with
          | some l => take q ⟨l.kind, ⟨start, start.after l.text⟩⟩ l.rest
          | none => passing start start (c :: body) q
  | passing start p ('\x00' :: rest) q =>
      let after := rest.dropWhile isSpace
      let stop := p.next '\x00'
      if (Lexeme.scan? after).isSome then take q ⟨.unlexable, ⟨start, stop⟩⟩ rest
      else passing start (stop.after (rest.takeWhile isSpace)) after q
  | passing start p cs q => take q ⟨.unlexable, ⟨start, p.after cs⟩⟩ []
  | reducing s goal =>
      match goal.choose s.state with
      | none => goal.next s
      | some p =>
          match s.reduce? p with
          | some s' => reducing s' goal
          | none => failed
  | comparing e n s best => round e n s best
  | accepted t => accepted t
  | failed => failed

def run : Nat → Machine → Machine
  | 0, m => m
  | n + 1, m => run n m.step

def start (text : List Char) : Machine :=
  scanning (Position.origin.after (Lexer.mark text)) (Lexer.body text) Progress.start

/-- The machine comes from one state to another in at most `n` steps. -/
def Reaches (n : Nat) (m m' : Machine) : Prop :=
  ∃ k ≤ n, run k m = m'

theorem run_add (m n : Nat) (a : Machine) : run (m + n) a = run n (run m a) := by
  induction m generalizing a with
  | zero => rw [Nat.zero_add, run]
  | succ m ih => rw [Nat.succ_add, run, ih, run]

theorem Reaches.refl (n : Nat) (m : Machine) : Reaches n m m :=
  ⟨0, Nat.zero_le n, rfl⟩

theorem Reaches.trans {m n : Nat} {a b c : Machine} (h : Reaches m a b) (h' : Reaches n b c) :
    Reaches (m + n) a c := by
  obtain ⟨j, hj, rfl⟩ := h
  obtain ⟨k, hk, rfl⟩ := h'
  exact ⟨j + k, Nat.add_le_add hj hk, run_add j k a⟩

theorem Reaches.mono {m n : Nat} {a b : Machine} (h : Reaches m a b) (le : m ≤ n) :
    Reaches n a b := by
  obtain ⟨k, hk, reached⟩ := h
  exact ⟨k, Nat.le_trans hk le, reached⟩

theorem Reaches.step {n : Nat} {a b : Machine} (h : Reaches n a.step b) : Reaches (n + 1) a b := by
  obtain ⟨k, hk, reached⟩ := h
  exact ⟨k + 1, Nat.succ_le_succ hk, reached⟩

/-! ## Reductions -/

section Reductions

variable {s : Stack} {row : List Tree}

theorem reduction?_of_choose {goal : Goal} {s : State} {p : Production}
    (h : goal.choose s = some p) : ∃ t : TokenKind, s.reduction? t = some p := by
  have forced (h : s.completion? = some p) : ∃ t : TokenKind, s.reduction? t = some p := by
    obtain ⟨t, -, ht⟩ := State.reduction?_of_completion? h
    exact ⟨t, ht⟩
  cases goal with
  | token t cs => exact ⟨t.kind, h⟩
  | skip t cs => exact forced h
  | ending e => exact ⟨.ending, h⟩
  | stuck e => exact forced h
  | supply e n s best => exact forced h
  | supplied e n s r best back => exact ⟨.ending, h⟩
  | gaveUp e best again => exact ⟨.ending, h⟩

/-- However long productions can be completed, there are no more of them than the rank of the state
tells, and each of them goes through. -/
theorem reducing_reaches_of_le (goal : Goal) (n : Nat) (hs : s.Holds row) (hn : s.state.rank ≤ n) :
    Reaches (n + 1) (reducing s goal) (goal.next (Stack.reduceWhile goal.choose n s)) := by
  induction n generalizing s with
  | zero =>
      apply Reaches.step
      rw [Machine.step]
      cases choice : goal.choose s.state with
      | none => exact .refl _ _
      | some p =>
          -- a reduction leads to a smaller rank, but there is none
          obtain ⟨t, ht⟩ := reduction?_of_choose choice
          obtain ⟨s', -, reduced⟩ := hs.viable.reduce? (State.production?_of_reduction? ht)
          obtain ⟨b, goes⟩ := reduced.goto
          have smaller := State.rank_goto_lt ht goes
          omega
  | succ n ih =>
      apply Reaches.step
      rw [Machine.step, Stack.reduceWhile]
      cases choice : goal.choose s.state with
      | none => exact .refl _ _
      | some p =>
          obtain ⟨t, ht⟩ := reduction?_of_choose choice
          have hp := State.production?_of_reduction? ht
          obtain ⟨s', hr, reduced⟩ := hs.viable.reduce? hp
          obtain ⟨b, goes⟩ := reduced.goto
          have smaller := State.rank_goto_lt ht goes
          simp only [Option.bind_some, hr]
          exact ih (hs.reduced hp reduced) (by omega)

theorem reducing_reaches (goal : Goal) (hs : s.Holds row) :
    Reaches 4 (reducing s goal) (goal.next (Stack.reduceWhile goal.choose s.state.rank s)) := by
  have rank : s.state.rank ≤ 3 := by cases s.state <;> simp [State.rank]
  exact (reducing_reaches_of_le goal _ hs (Nat.le_refl _)).mono (by omega)

end Reductions

/-! ## Tokens -/

theorem take_reaches {q : Progress} {row : List Tree} (hq : q.Holds row) (t : Token)
    (cs : List Char) : Reaches 8 (take q t cs) (scanning t.span.stop cs (q.read t)) := by
  obtain ⟨s, skipping⟩ := q
  cases skipping with
  | some k => exact .refl _ _
  | none =>
      have hs : s.Open row := hq
      simp only [take, Progress.read, Progress.readToken]
      split
      · exact .refl _ _
      · have settled : Reaches 4 (reducing s (.token t cs))
            (Goal.next (.token t cs) (s.settle t.kind)) :=
          reducing_reaches (.token t cs) hs.toHolds
        cases shift : (s.settle t.kind).state.shift? t.kind with
        | some state =>
            simp only [Goal.next, shift] at settled
            exact settled.mono (by omega)
        | none =>
            simp only [Goal.next, shift] at settled
            exact settled.trans (reducing_reaches (.skip t cs) (hs.toHolds.settle t.kind))

/-- Passing over characters leads to where scanning succeeds again, with at least one character
passed over in each step. -/
theorem passing_reaches (start p : Position) {cs stretch : List Char} (q : Progress) (h : cs ≠ [])
    (split : cs = stretch ++ Lexer.afterUnlexable cs) :
    Reaches stretch.length (passing start p cs q)
      (take q ⟨.unlexable, ⟨start, p.after stretch⟩⟩ (Lexer.afterUnlexable cs)) := by
  fun_induction Lexer.afterUnlexable cs generalizing p stretch with
  | case1 rest after lexes =>
      obtain rfl : stretch = ['\x00'] := by
        have same : stretch ++ rest = ['\x00'] ++ rest := split.symm
        exact List.append_cancel_right same
      apply Reaches.step
      rw [step, if_pos lexes]
      exact .refl _ _
  | case2 rest after stuck ih =>
      have some_left : after ≠ [] := by
        intro none
        simp [none, Lexeme.scan?] at stuck
      obtain ⟨more, whole⟩ := Lexer.afterUnlexable_suffix after
      have blank : rest = rest.takeWhile isSpace ++ after := List.takeWhile_append_dropWhile.symm
      obtain rfl : stretch = '\x00' :: rest.takeWhile isSpace ++ more := by
        have same : stretch ++ Lexer.afterUnlexable after =
            '\x00' :: rest.takeWhile isSpace ++ more ++ Lexer.afterUnlexable after := by
          rw [← split, List.append_assoc, whole, List.cons_append, ← blank]
        exact List.append_cancel_right same
      have later := ih (p := (p.next '\x00').after (rest.takeWhile isSpace)) some_left whole.symm
      apply Reaches.step
      rw [step, if_neg stuck]
      have place : ((p.next '\x00').after (rest.takeWhile isSpace)).after more =
          p.after ('\x00' :: rest.takeWhile isSpace ++ more) := by
        rw [List.cons_append, Position.after_cons, Position.after_append]
      rw [← place]
      exact later.mono (by simp)
  | case3 cs other =>
      rw [List.append_nil] at split
      subst split
      obtain ⟨n, hn⟩ := Nat.exists_eq_succ_of_ne_zero (List.length_pos_iff.2 h).ne'
      rw [hn]
      apply Reaches.step
      rw [step]
      · exact .refl _ _
      · exact other

/-! ## The end of the text -/

section Ending

variable {e : Token} {s : Stack} {row : List Tree}

/-- Going back leads to the cheaper of the best tree so far and the one that it is given up for. -/
theorem goBack_reaches (hs : s.Open row) {more : List Tree}
    (formed : ∀ t ∈ more, t.Formed ∧ t.isPart = true) {back : Option Stack}
    (splits : ∀ below ∈ back, ∃ up, s = up ++ below ∧ ∃ t ∈ up.trees ++ more, t.isExtra = false)
    (best : Option Tree) (again : Option (Nat × Stack)) :
    Reaches 4 (goBack e s more best again back)
      (nextRound e (keep best (back.bind (givenUp? s · more e))) again) := by
  cases back with
  | none =>
      rw [Option.bind_none, keep_none]
      exact .refl _ _
  | some below =>
      obtain ⟨up, rfl, counts⟩ := splits below rfl
      have opened := giveUp_open hs formed counts
      rw [Option.bind_some, givenUp?, goBack, Stack.above_append]
      exact reducing_reaches (.gaveUp e best again) opened.toHolds

/-- A round begins with supplying a token, where there is one to supply. -/
theorem round_reaches (n : Nat) (best : Option Tree) (hs : s.Open row)
    (inside : s.state.isInside = true) (done : s.state.completion? = none) :
    Reaches 5 (comparing e (n + 1) s best) (judge e n s best (supply? s)) := by
  apply Reaches.step
  rw [supply?_eq]
  cases missing : missing? s with
  | none =>
      simp only [step, round, missing]
      exact .refl _ _
  | some r =>
      simp only [step, round, missing]
      exact reducing_reaches (.supply e n s best) (missing?_open hs inside done missing).toHolds

/-- A round after which the best tree is known ends, any other looks at the end of the text after the
token that has been supplied, and then at a way back. -/
theorem judge_reaches (n : Nat) (best : Option Tree) (hs : s.Open row)
    (inside : s.state.isInside = true) (done : s.state.completion? = none)
    (go : ¬(keep best (some (broken s.trees e))).any (·.errorCost < cost s + Cost.recovery) = true) :
    let back := wayBack? s (supply? s) best 2 (s.suffixes (reach - 1)).tail
    let whole := (supply? s).bind (whole? · e)
    Reaches 8 (judge e n s best (supply? s))
      (nextRound e
        (keep (keep (keep best (some (broken s.trees e))) whole) (back.bind (givenUp? s · [] e)))
        (if whole.isNone then (supply? s).map (if back.isSome then n - 1 else n, ·) else none)) := by
  intro back whole
  have splits : ∀ below ∈ back, ∃ up, s = up ++ below ∧ ∃ t ∈ up.trees ++ [], t.isExtra = false := by
    intro below found
    obtain ⟨up, split, t, mem, counts⟩ := Stack.mem_suffixes_tail (wayBack?_mem found)
    exact ⟨up, split, t, List.mem_append_left _ mem, counts⟩
  unfold judge
  simp only [if_neg go]
  cases supplied : supply? s with
  | none =>
      have last := goBack_reaches (e := e) hs (by simp) splits (keep best (some (broken s.trees e))) none
      simp only [whole, supplied, back, Option.bind_none, keep_none, Option.map_none, ite_self] at last ⊢
      exact last.mono (by omega)
  | some r =>
      have opened := (supply?_open (n := 0) (by simpa using hs) inside done supplied).1
      have first := reducing_reaches
        (.supplied e n s r (keep best (some (broken s.trees e))) back) opened.toHolds
      simp only [whole, supplied, back] at first ⊢
      exact first.trans (goBack_reaches hs (by simp) (by simpa [back, supplied] using splits) _ _)

theorem comparing_reaches (n : Nat) (best : Option Tree) (hs : s.Open row)
    (inside : s.state.isInside = true) (done : s.state.completion? = none) :
    Reaches (13 * n + 1) (comparing e n s best) (conclude (close e n s best)) := by
  fun_induction close e n s best generalizing row with
  | case1 s best =>
      apply Reaches.step
      exact .refl _ _
  | case2 s best n best' =>
      rename_i stop
      have first := round_reaches (e := e) n best hs inside done
      unfold judge at first
      rw [if_pos stop] at first
      exact first.mono (by omega)
  | case3 s best n supplied back best' go whole best'' r hr =>
      rename_i hw ih
      obtain ⟨opened, completed⟩ := supply?_open (n := 0) (by simpa using hs) inside done hr
      have unfinished : whole? r e = none := by
        rw [← hw]
        simp only [whole, hr, Option.bind_some]
      have first : Reaches (5 + 8) (comparing e (n + 1) s best) (nextRound e best''
          (if whole.isNone then supplied.map (if back.isSome then n - 1 else n, ·) else none)) :=
        (round_reaches n best hs inside done).trans (judge_reaches n best hs inside done go)
      rw [hw, hr] at first
      have again := ih opened (isInside_of_whole?_none opened completed unfinished) completed
      have fewer : (if back.isSome then n - 1 else n) ≤ n := by split <;> omega
      exact (first.trans again).mono (by simp only [dite_eq_ite]; omega)
  | case4 s best n supplied back best' go whole best'' =>
      rename_i no
      have first : Reaches (5 + 8) (comparing e (n + 1) s best) (nextRound e best''
          (if whole.isNone then supplied.map (if back.isSome then n - 1 else n, ·) else none)) :=
        (round_reaches n best hs inside done).trans (judge_reaches n best hs inside done go)
      have stop : (if whole.isNone then supplied.map (if back.isSome then n - 1 else n, ·) else none) =
          none := by
        cases supplies : supplied with
        | none => simp
        | some r =>
            have some_whole : whole.isNone = false :=
              Bool.eq_false_iff.2 fun none => no r (Option.isNone_iff_eq_none.1 none) supplies
            simp [some_whole]
      rw [stop] at first
      exact first.mono (by omega)

theorem atEnd_reaches {q : Progress} (hq : q.Holds row) :
    Reaches 87 (atEnd e q) (conclude (finish e q)) := by
  obtain ⟨s, skipping⟩ := q
  cases skipping with
  | some k =>
      obtain ⟨hk, read, hs, rfl⟩ := hq
      have splits : ∀ below ∈ (s.suffixes (reach - 1)).find? (·.state.endsWell),
          ∃ up, s = up ++ below ∧ ∃ t ∈ up.trees ++ k.row, t.isExtra = false := by
        intro below found
        obtain ⟨up, split⟩ := Stack.mem_suffixes (List.mem_of_find?_eq_some found)
        exact ⟨up, split, k.run, List.mem_append_right _ List.mem_cons_self, hk.counts⟩
      exact (goBack_reaches hs hk.row splits _ none).mono (by omega)
  | none =>
      have hs : s.Open row := hq
      have settled : Reaches 4 (atEnd e ⟨s, none⟩) (Goal.next (.ending e) (s.settle .ending)) :=
        reducing_reaches (.ending e) hs.toHolds
      rw [finish]
      cases hw : whole? s e with
      | some t =>
          rw [whole?_eq_settled?] at hw
          simp only [Goal.next, hw] at settled
          exact settled.mono (by omega)
      | none =>
          obtain ⟨held, inside⟩ := settled_of_whole?_none hs hw
          rw [whole?_eq_settled?] at hw
          simp only [Goal.next, hw] at settled
          have closing : Reaches 4 (reducing (s.settle .ending) (.stuck e))
              (comparing e rounds (s.settle .ending).complete none) :=
            reducing_reaches (.stuck e) held.toHolds
          have compared := comparing_reaches (e := e) rounds none held.complete
            (held.complete_inside inside) held.completed
          exact (settled.trans (closing.trans compared)).mono (by decide)

end Ending

/-! ## Whole texts -/

/-- From any place in a text the machine comes to the tree that is completed after its tokens. -/
theorem scanning_reaches (p : Position) (cs : List Char) {q : Progress} {row : List Tree}
    (hq : q.Holds row) :
    Reaches (10 * cs.length + 88) (scanning p cs q)
      (conclude (finish ⟨.ending, .empty (p.after cs)⟩
        ((Lexer.tokensFrom p cs).foldl Progress.read q))) := by
  fun_induction Lexer.tokensFrom p cs generalizing q row with
  | case1 p cs blank =>
      apply Reaches.step
      simp only [step, blank]
      exact (atEnd_reaches hq).mono (by omega)
  | case2 p cs start c body split l lexes =>
      rename_i stop ih
      have whole : cs = cs.takeWhile isSpace ++ l.text ++ l.rest := by
        rw [List.append_assoc, ← Lexeme.scan?_append lexes, ← split, List.takeWhile_append_dropWhile]
      have place : stop.after l.rest = p.after cs := by
        conv_rhs => rw [whole, Position.after_append, Position.after_append]
      have shorter : l.rest.length < cs.length := by
        have consumed := Lexeme.scan?_rest_length lexes
        have trimmed := (List.dropWhile_suffix isSpace (l := cs)).length_le
        rw [split] at trimmed
        omega
      have inside : l.kind ≠ .ending := by
        intro ending
        cases (Lexeme.scan?_kind lexes).2 ending
      have first : Reaches 9 (scanning p cs q)
          (scanning stop l.rest (q.read ⟨l.kind, ⟨start, stop⟩⟩)) := by
        apply Reaches.step
        simp only [step, split, lexes]
        exact take_reaches hq _ _
      have later := ih (Progress.read_holds (t := ⟨l.kind, ⟨start, stop⟩⟩) hq inside)
      rw [place] at later
      exact (first.trans later).mono (by omega)
  | case3 p cs start c body split stuck rest =>
      rename_i stop ih
      obtain ⟨stretch, parts⟩ : ∃ stretch, stretch ++ rest = c :: body :=
        Lexer.afterUnlexable_suffix (c :: body)
      have taken : (c :: body).take ((c :: body).length - rest.length) = stretch := by
        rw [← parts, List.length_append, Nat.add_sub_cancel, List.take_left]
      have whole : cs = cs.takeWhile isSpace ++ stretch ++ rest := by
        rw [List.append_assoc, parts, ← split, List.takeWhile_append_dropWhile]
      have place : stop.after rest = p.after cs := by
        simp only [stop, taken]
        conv_rhs => rw [whole, Position.after_append, Position.after_append]
      have consumed : 0 < stretch.length ∧ stretch.length + rest.length ≤ cs.length := by
        have shorter := Lexer.afterUnlexable_length (c :: body) (List.cons_ne_nil _ _)
        have total := congrArg List.length parts
        have all := congrArg List.length whole
        simp only [List.length_append] at total all
        simp only [rest] at *
        omega
      have first : Reaches (1 + stretch.length + 8) (scanning p cs q)
          (scanning stop rest (q.read ⟨.unlexable, ⟨start, stop⟩⟩)) := by
        have passed := passing_reaches start start q (List.cons_ne_nil c body) parts.symm
        have read := passed.trans (take_reaches hq ⟨.unlexable, ⟨start, start.after stretch⟩⟩ rest)
        simp only [stop, taken]
        rw [Nat.add_assoc, Nat.add_comm 1]
        apply Reaches.step
        simp only [step, split, stuck]
        exact read
      have later := ih (Progress.read_holds (t := ⟨.unlexable, ⟨start, stop⟩⟩) hq (by simp))
      rw [place] at later
      exact (first.trans later).mono (by omega)

end Machine

/-- Replaces what is known about a document by the definitions in its text, unless there is no tree
of the text. -/
def Index.insert? (index : Index) (uri source : String) : Option (Index × Nat) :=
  (parse? source.toList).map fun tree =>
    let found := Definition.all source.toList tree
    (index.replace uri found, found.length)

/-- There is a way to complete a tree for every text. -/
theorem parse?_eq (text : List Char) : parse? text = some (parse text) := by
  have held := Progress.readAll_holds (Lexer.tokens_ne_ending text)
  have ending : (Lexer.endToken text).kind = .ending := rfl
  obtain ⟨t, finished, -⟩ := Completion.finish_repaired ending held
  have there : parse? text = some t := finished
  rw [parse, there, Option.getD_some]

theorem start_reaches (text : List Char) :
    Machine.Reaches (10 * text.length + 88) (Machine.start text) (.accepted (parse text)) := by
  have all := Machine.scanning_reaches (Position.origin.after (Lexer.mark text)) (Lexer.body text)
    Progress.Holds.start
  have place : (Position.origin.after (Lexer.mark text)).after (Lexer.body text) =
      Lexer.textEnd text := by
    rw [← Position.after_append, Lexer.mark_append_body]
    rfl
  have finished : Completion.finish ⟨.ending, .empty (Lexer.textEnd text)⟩
      ((Lexer.tokens text).foldl Progress.read Progress.start) = some (parse text) := parse?_eq text
  have shorter : (Lexer.body text).length ≤ text.length := by
    conv_rhs => rw [← Lexer.mark_append_body text, List.length_append]
    exact Nat.le_add_left _ _
  rw [← Lexer.tokens_eq, place, finished] at all
  exact all.mono (by omega)

/-- On every text the parser comes to a tree, in a number of steps that is linear in the length of
the text.  So there is a tree for every text, the text can be cut at each of its nodes, and a document
can always be indexed. -/
theorem parse_halts (source : String) :
    (∃ n ≤ 10 * source.toList.length + 88,
      (Machine.start source.toList).run n = .accepted (parse source.toList)) ∧
    parse? source.toList = some (parse source.toList) ∧
    (∀ c ∈ (parse source.toList).preorder, ∃ word, c.tree.text? source.toList = some word) ∧
    ∀ (index : Index) (uri : String), index.insert? uri source = some (index.insert uri source) := by
  refine ⟨start_reaches source.toList, parse?_eq source.toList, fun c hc => ?_, fun index uri => ?_⟩
  · obtain ⟨word, spells⟩ := Tree.exists_spells (Tree.mem_nodes_of_mem_preorder hc)
    exact ⟨word, spells.slice?⟩
  · rw [Index.insert?, parse?_eq, Option.map_some]
    rfl

end MettaSyntax
