import MettaSyntax.Proofs.Machine

/-! # Every stack that the parser makes is viable

`Stack.Made` says that a stack comes about by the operations of the parser, in whatever order: a token
that the table shifts, from the text or supplied as missing, an extra, a reduction that the table asks
for on some token, a way back to an earlier part of the stack, and an error put on top of it.  All of
them keep a stack viable, so no reduction finds anything on a stack but a right-hand side of its
production, and below that a state that goes on.  The stacks of the parsing machine are made in this
way at every step, and the machine never fails. -/

set_option autoImplicit false

namespace MettaSyntax

theorem State.eq_comment_of_shiftExtra {s : State} {k : TokenKind}
    (h : s.action k = some .shiftExtra) : k = .comment := by
  cases k <;> cases s <;> first | rfl | cases h

namespace Stack

/-- The stacks that the parser makes, whatever it chooses to do next. -/
inductive Made : Stack → Prop
  | start : Made []
  /-- A token is taken that may stand anywhere. -/
  | extra {s : Stack} (t : Token) (hs : Made s) (h : s.state.action t.kind = some .shiftExtra) :
      Made (⟨.ofToken t, s.state⟩ :: s)
  /-- A token is shifted, one of the text or a missing one. -/
  | shift {s : Stack} (t : Token) (missing : Bool) {next : State} (hs : Made s)
      (h : s.state.shift? t.kind = some next) : Made (⟨.leaf t missing, next⟩ :: s)
  /-- A production is completed that some token asks for, be it the next one or not. -/
  | reduce {s s' : Stack} {t : TokenKind} {p : Production} (hs : Made s)
      (h : s.state.reduction? t = some p) (reduced : s.reduce? p = some s') : Made s'
  /-- The trees above a part of the stack are taken off. -/
  | back {up below : Stack} (hs : Made (up ++ below)) : Made below
  /-- A row of trees is put on top as an error. -/
  | error {s : Stack} (hs : Made s) (row : List Tree) : Made (s.pushError row)

/-- What a production asks for is on top of the stack: the trees that completing it takes off count as
one of its right-hand sides, and the state below them goes on with what it builds. -/
def Reducible (s : Stack) (p : Production) : Prop :=
  ∃ row below next, pop p.arity s [] = (row, below) ∧ s.trees = below.trees ++ row ∧
    p.spells (Tree.counted row) = true ∧ below.state.goto p.result = some next

variable {s s' : Stack} {p : Production}

/-! ## What the operations keep -/

theorem Made.viable (h : s.Made) : s.Viable := by
  induction h with
  | start => exact .nil
  | extra t hs h ih =>
      have comment := State.eq_comment_of_shiftExtra h
      have extra : (Tree.ofToken t).isExtra = true := by simp [Tree.ofToken, Tree.isExtra, comment]
      exact .extra extra ih
  | shift t missing hs h ih => exact ih.shift h missing
  | reduce hs h reduced ih =>
      have reduces := ih.reduced (State.production?_of_reduction? h) reduced
      exact reduces.viable.1
  | back hs ih => exact ih.ofAppend
  | error hs row ih => exact (ih.pushError row).1

/-! ## What viability says -/

/-- A tree that counts leads along an edge of the table, and an extra leads nowhere. -/
theorem Viable.edge {up below : Stack} {f : Frame} (h : Viable (up ++ f :: below)) :
    if f.tree.isExtra then f.state = below.state
    else below.state.step? f.tree.symbol = some f.state := by
  cases h.ofAppend with
  | extra extra _ => exact (if_pos extra).mpr rfl
  | step counts edge _ => simpa [counts] using edge

theorem Viable.reducible {t : TokenKind} (hs : s.Viable) (h : s.state.reduction? t = some p) :
    s.Reducible p := by
  obtain ⟨xs, below, row, next, taken, spelt, goes⟩ :=
    hs.completes (State.production?_of_reduction? h)
  refine ⟨row, below, next, taken.popped spelt, taken.trees, ?_, goes⟩
  rw [taken.counted]
  exact spelt

/-! ## The operations behind the functions of the parser -/

theorem Made.of_mem_suffixes (hs : s.Made) {n : Nat} {u : Stack} (h : u ∈ suffixes n s) : u.Made := by
  obtain ⟨up, split⟩ := mem_suffixes h
  rw [split] at hs
  exact hs.back

theorem Made.missing? (hs : s.Made) {r : Stack} (h : Completion.missing? s = some r) : r.Made := by
  unfold Completion.missing? at h
  obtain ⟨kind, -, h⟩ := Option.bind_eq_some_iff.1 h
  obtain ⟨next, shift, h⟩ := Option.bind_eq_some_iff.1 h
  obtain rfl := Option.some.inj h
  exact .shift ⟨kind, .empty s.position⟩ true hs shift

end Stack

/-! ## The stacks of the machine -/

/-- The stacks that are kept for what comes after the productions. -/
def Goal.versions : Goal → List Stack
  | .supply _ _ s _ => [s]
  | .supplied _ _ s r _ back => s :: r :: back.toList
  | .gaveUp _ _ again => again.toList.map Prod.snd
  | _ => []

namespace Machine

/-- All the stacks that there are at a time. -/
def versions : Machine → List Stack
  | scanning _ _ q => [q.stack]
  | passing _ _ _ q => [q.stack]
  | reducing s goal => s :: goal.versions
  | comparing _ _ s _ => [s]
  | accepted _ => []
  | failed => []

/-- Every stack that there is at a time is one that the parser makes. -/
def AllMade (m : Machine) : Prop :=
  ∀ s ∈ m.versions, s.Made

section Steps

variable {s : Stack} {e : Token} {best : Option Tree}

theorem allMade_reducing {goal : Goal} :
    (reducing s goal).AllMade ↔ s.Made ∧ ∀ u ∈ goal.versions, u.Made := by
  simp [AllMade, versions]

theorem allMade_scanning {p : Position} {cs : List Char} {q : Progress} :
    (scanning p cs q).AllMade ↔ q.stack.Made := by
  simp [AllMade, versions]

theorem allMade_passing {start p : Position} {cs : List Char} {q : Progress} :
    (passing start p cs q).AllMade ↔ q.stack.Made := by
  simp [AllMade, versions]

theorem allMade_conclude : (conclude best).AllMade := by
  cases best <;> simp [conclude, AllMade, versions]

theorem allMade_nextRound {again : Option (Nat × Stack)}
    (h : ∀ u ∈ again.toList.map Prod.snd, u.Made) : (nextRound e best again).AllMade := by
  cases again with
  | none => exact allMade_conclude
  | some round => exact h

theorem allMade_goBack {row : List Tree} {again : Option (Nat × Stack)} {back : Option Stack}
    (hb : ∀ u ∈ back, u.Made) (ha : ∀ u ∈ again.toList.map Prod.snd, u.Made) :
    (goBack e s row best again back).AllMade := by
  cases back with
  | none => exact allMade_nextRound ha
  | some below => exact allMade_reducing.2 ⟨(hb below rfl).error _, ha⟩

theorem allMade_resume {q : Stack} {k : Skipping} {t : Token} (hq : q.Made) :
    (Progress.resume q k t).stack.Made := by
  unfold Progress.resume
  split
  · exact hq
  · cases shift : q.state.shift? t.kind with
    | none => exact hq
    | some next =>
        have same := (hq.viable.pushError k.row).2
        exact .shift t false (hq.error k.row) (same ▸ shift)

theorem allMade_take {q : Progress} (hq : q.stack.Made) (t : Token) (cs : List Char) :
    (take q t cs).AllMade := by
  unfold take
  split
  · exact allMade_scanning.2 (allMade_resume hq)
  · split
    · next comment =>
        refine allMade_scanning.2 (.extra t hq ?_)
        rw [comment]
        rfl
    · exact allMade_reducing.2 ⟨hq, by simp [Goal.versions]⟩

theorem allMade_judge (hs : s.Made) (n : Nat) {supplied : Option Stack}
    (hr : ∀ r ∈ supplied, r.Made) : (judge e n s best supplied).AllMade := by
  have back : ∀ u ∈ Completion.wayBack? s supplied best 2 (s.suffixes (Completion.reach - 1)).tail,
      u.Made := by
    intro u hu
    exact hs.of_mem_suffixes (List.mem_of_mem_tail (Completion.wayBack?_mem hu))
  unfold judge
  dsimp only
  split
  · exact allMade_conclude
  · cases supplied with
    | none => exact allMade_goBack back (by simp)
    | some r =>
        refine allMade_reducing.2 ⟨hr r rfl, ?_⟩
        intro u hu
        simp only [Goal.versions, List.mem_cons, Option.mem_toList] at hu
        rcases hu with rfl | rfl | hu
        · exact hs
        · exact hr u rfl
        · exact back u hu

theorem allMade_round (hs : s.Made) (n : Nat) : (round e n s best).AllMade := by
  cases n with
  | zero => exact allMade_conclude
  | succ n =>
      rw [round]
      cases missing : Completion.missing? s with
      | none => exact allMade_judge hs n (by simp)
      | some r =>
          refine allMade_reducing.2 ⟨hs.missing? missing, ?_⟩
          simpa [Goal.versions] using hs

theorem allMade_atEnd {q : Progress} (hq : q.stack.Made) : (atEnd e q).AllMade := by
  unfold atEnd
  split
  · apply allMade_goBack _ (by simp)
    intro u hu
    exact hq.of_mem_suffixes (List.mem_of_find?_eq_some hu)
  · exact allMade_reducing.2 ⟨hq, by simp [Goal.versions]⟩

/-- Once no production is left to complete, the stacks are those that were kept for it, and what a
shift or a way back makes of them. -/
theorem allMade_next {goal : Goal} (hs : s.Made) (hg : ∀ u ∈ goal.versions, u.Made) :
    (goal.next s).AllMade := by
  cases goal with
  | token t cs =>
      rw [Goal.next]
      cases shift : s.state.shift? t.kind with
      | none => exact allMade_reducing.2 ⟨hs, by simp [Goal.versions]⟩
      | some next => exact allMade_scanning.2 (.shift t false hs shift)
  | skip t cs => exact allMade_scanning.2 hs
  | ending e =>
      rw [Goal.next]
      split
      · simp [AllMade, versions]
      · exact allMade_reducing.2 ⟨hs, by simp [Goal.versions]⟩
  | stuck e =>
      rw [Goal.next, AllMade, versions]
      simpa using hs
  | supply e n u best =>
      have made : ∀ r ∈ some s, r.Made := by
        intro r hr
        exact Option.some.inj hr ▸ hs
      exact allMade_judge (hg u (by simp [Goal.versions])) n made
  | supplied e n u r best back =>
      refine allMade_goBack (fun v hv => hg v (by simp [Goal.versions, Option.mem_def.1 hv])) ?_
      intro v hv
      have same : v = r := by
        split at hv
        · simpa using hv
        · simp at hv
      exact hg v (by simp [Goal.versions, same])
  | gaveUp e best again => exact allMade_nextRound hg

end Steps

/-- A step makes stacks by the operations of the parser only. -/
theorem step_allMade {m : Machine} (h : m.AllMade) : m.step.AllMade := by
  fun_cases step m with
  | case1 p cs q blank => exact allMade_atEnd (allMade_scanning.1 h)
  | case2 p cs q start c body split l lexes => exact allMade_take (allMade_scanning.1 h) _ _
  | case3 p cs q start c body split stuck => exact allMade_passing.2 (allMade_scanning.1 h)
  | case4 start p rest q after stop lexes => exact allMade_take (allMade_passing.1 h) _ _
  | case5 start p rest q after stop stuck => exact allMade_passing.2 (allMade_passing.1 h)
  | case6 start p cs q other => exact allMade_take (allMade_passing.1 h) _ _
  | case7 s goal done =>
      obtain ⟨hs, hg⟩ := allMade_reducing.1 h
      exact allMade_next hs hg
  | case8 s goal p choice s' reduced =>
      obtain ⟨hs, hg⟩ := allMade_reducing.1 h
      obtain ⟨t, ht⟩ := reduction?_of_choose choice
      exact allMade_reducing.2 ⟨hs.reduce ht reduced, hg⟩
  | case9 s goal p choice stuck => simp [AllMade, versions]
  | case10 e n s best => exact allMade_round (h s (by simp [versions])) n
  | case11 t => exact h
  | case12 => exact h

theorem run_allMade (n : Nat) {m : Machine} (h : m.AllMade) : (run n m).AllMade := by
  induction n generalizing m with
  | zero => exact h
  | succ n ih => exact ih (step_allMade h)

theorem start_allMade (text : List Char) : (start text).AllMade :=
  allMade_scanning.2 .start

theorem run_accepted (n : Nat) (t : Tree) : run n (accepted t) = accepted t := by
  induction n with
  | zero => rfl
  | succ n ih => exact ih

theorem run_failed (n : Nat) : run n failed = failed := by
  induction n with
  | zero => rfl
  | succ n ih => exact ih

/-- The machine does not fail on its way to a tree, since it would not come to the tree afterwards. -/
theorem run_ne_failed (text : List Char) (n : Nat) : run n (start text) ≠ failed := by
  intro stuck
  obtain ⟨k, -, reached⟩ := start_reaches text
  have late : run (n + k) (start text) = failed := by rw [run_add, stuck, run_failed]
  have early : run (k + n) (start text) = accepted (parse text) := by
    rw [run_add, reached, run_accepted]
  rw [Nat.add_comm, early] at late
  cases late

end Machine

/-- On every text, each stack that there is at any step of the parser is made by shifts, extras,
reductions, ways back and errors, and no step fails, least of all a reduction.  However a stack is made
by these, each of its trees leads along a shift or a goto of the table from the state below it, unless
it is an extra, which leaves the state as it is; and whatever token asks for a reduction, the trees that
this takes off count as a right-hand side of its production, and the state below them goes on with what
is built. -/
theorem versions_viable (text : List Char) :
    (∀ n, Machine.run n (Machine.start text) ≠ .failed ∧
      ∀ s ∈ (Machine.run n (Machine.start text)).versions, s.Made) ∧
    (∀ n s goal p, Machine.run n (Machine.start text) = .reducing s goal →
      goal.choose s.state = some p → s.Reducible p) ∧
    ∀ s : Stack, s.Made →
      (∀ up f below, s = up ++ f :: below →
        if f.tree.isExtra then f.state = Stack.state below
        else (Stack.state below).step? f.tree.symbol = some f.state) ∧
      ∀ t p, s.state.reduction? t = some p → s.Reducible p := by
  have made (n : Nat) : (Machine.run n (Machine.start text)).AllMade :=
    Machine.run_allMade n (Machine.start_allMade text)
  refine ⟨fun n => ⟨Machine.run_ne_failed text n, made n⟩, ?_, ?_⟩
  · intro n s goal p reducing choice
    have all := made n
    rw [reducing] at all
    obtain ⟨t, ht⟩ := Machine.reduction?_of_choose choice
    exact (Machine.allMade_reducing.1 all).1.viable.reducible ht
  · intro s hs
    refine ⟨fun up f below split => ?_, fun t p asks => hs.viable.reducible asks⟩
    have viable := hs.viable
    rw [split] at viable
    exact viable.edge

end MettaSyntax
