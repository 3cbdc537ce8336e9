import MettaSyntax.Proofs.Viable

/-! # What a stack holds

`s.Holds row` says that the stack is viable, that its trees are well formed, and that their leaves
are those of `row`.  Reductions leave what is held as it is, a shift adds the token, and giving up a
row of trees as an error adds the leaves of that row: whatever the parser does, nothing that it has
read is lost. -/

set_option autoImplicit false

namespace MettaSyntax

namespace State

theorem ne_of_shift? {b s : State} {k : TokenKind} (h : b.shift? k = some s) :
    k ≠ .comment ∧ k ≠ .ending ∧ k ≠ .unlexable := by
  refine ⟨?_, ?_, ?_⟩
  · rintro rfl
    cases b <;> cases h
  · rintro rfl
    cases b <;> cases h
  · rintro rfl
    cases b <;> cases h

theorem step?_toSymbol {b s : State} {k : TokenKind} (h : b.shift? k = some s) :
    b.step? k.toSymbol = some s := by
  have readable := (ne_of_shift? h).2.2
  cases k with
  | unlexable => exact absurd rfl readable
  | ending => exact h
  | opening => exact h
  | closing => exact h
  | atom kind => exact h
  | comment => exact h

theorem not_mem_sources_finished {s : State} {x : Symbol} : (State.finished, x) ∉ s.sources := by
  cases s <;> simp [sources, bases]

theorem eq_of_mem_sources_finished {b : State} {x : Symbol} (h : (b, x) ∈ State.finished.sources) :
    x = .nonterminal .sourceFile := by
  simp only [sources, List.mem_singleton, Prod.mk.injEq] at h
  exact h.2

theorem eq_finished_of_sourceFile {b s : State}
    (h : (b, Symbol.nonterminal .sourceFile) ∈ s.sources) : s = .finished := by
  cases s <;> simp [sources, bases] at h ⊢
  all_goals rename_i e; cases e <;> simp [Element.symbol] at h

end State

namespace Stack

structure Holds (s : Stack) (row : List Tree) : Prop where
  viable : s.Viable
  formed : ∀ t ∈ s.trees, t.Formed
  leaves : Tree.leavesRow s.trees = row

theorem Holds.nil : Holds [] [] :=
  ⟨.nil, by simp, rfl⟩

/-- On a stack that has not finished, every tree may stand below the root. -/
theorem Viable.parts {s : Stack} (hs : Viable s) (formed : ∀ t ∈ s.trees, t.Formed)
    (h : s.state ≠ .finished) : ∀ t ∈ s.trees, t.isPart = true := by
  induction hs with
  | nil => simp
  | @extra s t ht hs ih =>
      refine forall_trees_cons.2 ⟨ih (forall_trees_cons.1 formed).1 h, ?_⟩
      cases t with
      | leaf token missing => rfl
      | node label span children =>
          cases label with
          | production p => simp [Tree.isExtra] at ht
          | error whole => exact ht
          | skipped => rfl
  | @step s f hf edge hs ih =>
      have source := State.mem_sources_of_step? edge
      have open' : s.state ≠ .finished := by
        intro finished
        rw [finished] at source
        exact State.not_mem_sources_finished source
      refine forall_trees_cons.2 ⟨ih (forall_trees_cons.1 formed).1 open', ?_⟩
      cases htree : f.tree with
      | leaf token missing => rfl
      | node label span children =>
          rw [htree] at edge source
          cases label with
          | production p =>
              have other : p.result ≠ .sourceFile := by
                intro file
                apply h
                apply State.eq_finished_of_sourceFile
                rw [← file]
                exact source
              simpa [Tree.isPart] using other
          | error whole => cases edge
          | skipped => rfl

theorem Viable.ofAppend {up below : Stack} (h : Viable (up ++ below)) : Viable below := by
  induction up with
  | nil => exact h
  | cons f up ih =>
      cases h with
      | extra _ hs => exact ih hs
      | step _ _ hs => exact ih hs

theorem Viable.ne_finished {up below : Stack} (h : Viable (up ++ below))
    (hs : state (up ++ below) ≠ .finished) : state below ≠ .finished := by
  induction up with
  | nil => exact hs
  | cons f up ih =>
      cases h with
      | extra _ hv => exact ih hv hs
      | step _ edge hv =>
          apply ih hv
          intro finished
          have below : state (up.append below) = .finished := finished
          rw [below] at edge
          exact State.not_mem_sources_finished (State.mem_sources_of_step? edge)

/-- At the start there are only extras. -/
theorem Viable.extras {s : Stack} (hs : Viable s) (h : s.state = .start) :
    ∀ t ∈ s.trees, t.isExtra = true := by
  induction hs with
  | nil => simp
  | @extra s t ht hs ih =>
      exact forall_trees_cons.2 ⟨ih h, ht⟩
  | @step s f hf edge hs ih =>
      have source := State.mem_sources_of_step? edge
      have start : f.state = .start := h
      rw [start] at source
      cases source

/-! ## Shifts and errors -/

section Pushes

variable {s : Stack}

theorem Viable.takeError (hs : s.Viable) :
    s.takeError.2.Viable ∧ s.takeError.2.state = s.state := by
  unfold Stack.takeError
  split
  · next whole span children st below =>
      cases hs with
      | extra _ viable => exact ⟨viable, rfl⟩
      | step _ edge _ => cases edge
  · exact ⟨hs, rfl⟩

theorem Viable.pushError (hs : s.Viable) (row : List Tree) :
    (s.pushError row).Viable ∧ (s.pushError row).state = s.state := by
  obtain ⟨viable, same⟩ := hs.takeError
  unfold Stack.pushError
  dsimp only
  apply viable.pushAll same
  intro t ht
  rcases List.mem_append.1 ht with error | trailing
  · by_cases empty : (Tree.splitTrailing (s.takeError.1 ++ row)).1.isEmpty = true
    · rw [if_pos empty] at error
      cases error
    · rw [if_neg empty] at error
      rw [List.mem_singleton.1 error]
      rfl
  · exact Tree.splitTrailing_extra _ t trailing

theorem Viable.shift {t : Token} {next : State} (hs : s.Viable)
    (h : s.state.shift? t.kind = some next) (missing : Bool) :
    Viable (⟨.leaf t missing, next⟩ :: s) := by
  obtain ⟨comment, ending, -⟩ := State.ne_of_shift? h
  have counts : (Tree.leaf t missing).isExtra = false := by simp [Tree.isExtra, comment, ending]
  exact .step counts (State.step?_toSymbol h) hs

end Pushes

/-! ## Reductions -/

section Reductions

variable {s s' : Stack} {row : List Tree} {p : Production}

theorem Holds.reduced (hs : s.Holds row) (hp : s.state.production? = some p)
    (h : Reduced s p s') : s'.Holds row := by
  have reached := h.viable.1
  obtain ⟨below, body, extras, next, rfl, split, admits, -, -, -⟩ := h
  have open' : s.state ≠ .finished := by
    intro finished
    rw [finished] at hp
    cases hp
  have parts := hs.viable.parts hs.formed open'
  have formed := hs.formed
  rw [split] at parts formed
  simp only [List.mem_append] at parts formed
  have node : (Tree.ofChildren (.production p) s.position body).Formed :=
    .ofChildren _ admits (fun t ht => parts t (.inl (.inr ht)))
      fun t ht => formed t (.inl (.inr ht))
  refine ⟨reached, ?_, ?_⟩
  · intro t ht
    rw [trees_pushAll, trees_cons] at ht
    simp only [List.mem_append, List.mem_singleton] at ht
    rcases ht with (ht | rfl) | ht
    · exact formed t (.inl (.inl ht))
    · exact node
    · exact formed t (.inr ht)
  · rw [trees_pushAll, trees_cons, ← hs.leaves, split]
    simp

theorem Holds.reduce? (hs : s.Holds row) (hp : s.state.production? = some p)
    (h : s.reduce? p = some s') : s'.Holds row := by
  exact hs.reduced hp (hs.viable.reduced hp h)

theorem Reduced.goto (h : Reduced s p s') : ∃ b : State, b.goto p.result = some s'.state :=
  h.viable.2

theorem reduceWhile_induction (P : Stack → Prop) {choose : State → Option Production}
    (step : ∀ s p s', P s → choose s.state = some p → s.reduce? p = some s' → P s')
    (n : Nat) (s : Stack) (h : P s) : P (reduceWhile choose n s) := by
  induction n generalizing s with
  | zero => exact h
  | succ n ih =>
      rw [reduceWhile]
      cases hc : choose s.state with
      | none => exact h
      | some p =>
          cases hr : s.reduce? p with
          | none => simpa [hr] using h
          | some s' => simpa [hr] using ih s' (step s p s' h hc hr)

/-- As many reductions as the rank of the state are enough. -/
theorem reduceWhile_stops {choose : State → Option Production}
    (hc : ∀ s p, choose s = some p → ∃ t : TokenKind, s.reduction? t = some p)
    (n : Nat) (s : Stack) (hs : s.Holds row) (hn : s.state.rank ≤ n) :
    choose (reduceWhile choose n s).state = none := by
  -- a reduction of a viable stack goes through, and leads to a state of smaller rank
  induction n generalizing s with
  | zero =>
      cases h : choose s.state with
      | none => exact h
      | some p =>
          obtain ⟨t, ht⟩ := hc _ _ h
          obtain ⟨s', -, reduced⟩ := hs.viable.reduce? (State.production?_of_reduction? ht)
          obtain ⟨b, goes⟩ := reduced.goto
          have := State.rank_goto_lt ht goes
          omega
  | succ n ih =>
      rw [reduceWhile]
      cases h : choose s.state with
      | none => exact h
      | some p =>
          obtain ⟨t, ht⟩ := hc _ _ h
          have hp := State.production?_of_reduction? ht
          obtain ⟨s', hr, reduced⟩ := hs.viable.reduce? hp
          obtain ⟨b, goes⟩ := reduced.goto
          have smaller := State.rank_goto_lt ht goes
          simp only [Option.bind_some, hr]
          exact ih s' (hs.reduced hp reduced) (by omega)

theorem Holds.settle (hs : s.Holds row) (t : TokenKind) : (s.settle t).Holds row :=
  reduceWhile_induction (·.Holds row)
    (fun _ _ _ hs hp hr => hs.reduce? (State.production?_of_reduction? hp) hr) _ s hs

theorem Holds.settled (hs : s.Holds row) (t : TokenKind) :
    (s.settle t).state.reduction? t = none :=
  @reduceWhile_stops row (·.reduction? t) (fun _ _ h => ⟨t, h⟩) _ s hs (Nat.le_refl _)

theorem Holds.completed (hs : s.Holds row) : s.complete.state.completion? = none := by
  apply reduceWhile_stops _ _ s hs (Nat.le_refl _)
  intro s p h
  obtain ⟨t, -, ht⟩ := State.reduction?_of_completion? h
  exact ⟨t, ht⟩

/-- What every reduction keeps is kept by any number of them. -/
theorem Holds.reduceWhile_of {P : Stack → Prop} (step : ∀ u p u', P u → Reduced u p u' → P u')
    {choose : State → Option Production}
    (hc : ∀ s p, choose s = some p → s.production? = some p) (hs : s.Holds row) (h : P s) (n : Nat) :
    P (reduceWhile choose n s) := by
  have kept : (reduceWhile choose n s).Holds row ∧ P (reduceWhile choose n s) := by
    apply reduceWhile_induction (fun u => u.Holds row ∧ P u) _ n s ⟨hs, h⟩
    rintro u p u' ⟨held, hu⟩ hp hr
    have reduced := held.viable.reduced (hc _ _ hp) hr
    exact ⟨held.reduced (hc _ _ hp) reduced, step u p u' hu reduced⟩
  exact kept.2

theorem Holds.settle_of {P : Stack → Prop} (step : ∀ u p u', P u → Reduced u p u' → P u')
    (hs : s.Holds row) (h : P s) (t : TokenKind) : P (s.settle t) :=
  hs.reduceWhile_of step (fun _ _ => State.production?_of_reduction?) h _

theorem Holds.complete_of {P : Stack → Prop} (step : ∀ u p u', P u → Reduced u p u' → P u')
    (hs : s.Holds row) (h : P s) : P s.complete := by
  refine hs.reduceWhile_of step (fun s p hp => ?_) h _
  obtain ⟨t, -, ht⟩ := State.reduction?_of_completion? hp
  exact State.production?_of_reduction? ht

end Reductions

end Stack

end MettaSyntax
