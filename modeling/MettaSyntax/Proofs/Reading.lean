import MettaSyntax.Parse.Progress
import MettaSyntax.Proofs.Yield

/-! # Reading keeps every token

After any row of tokens the parser holds exactly their leaves: those on the stack, followed by those
that are being skipped. -/

set_option autoImplicit false

namespace MettaSyntax

namespace Stack

/-- A stack that holds a row of leaves and has not finished. -/
structure Open (s : Stack) (row : List Tree) : Prop extends s.Holds row where
  unfinished : s.state ≠ .finished

theorem Open.nil : Open [] [] :=
  ⟨.nil, by simp [state]⟩

section Steps

variable {s : Stack} {row : List Tree}

theorem Open.parts (hs : s.Open row) : ∀ t ∈ s.trees, t.isPart = true :=
  hs.viable.parts hs.formed hs.unfinished

/-- Only the end of the text can finish a file. -/
theorem Open.reduce? {s' : Stack} {p : Production} {t : TokenKind} (hs : s.Open row)
    (ht : t ≠ .ending) (hp : s.state.reduction? t = some p) (h : s.reduce? p = some s') :
    s'.Open row := by
  have hp' := State.production?_of_reduction? hp
  refine ⟨hs.toHolds.reduce? hp' h, ?_⟩
  obtain ⟨b, goes⟩ := (hs.viable.reduced hp' h).goto
  intro finished
  rw [finished] at goes
  have file := State.eq_of_mem_sources_finished (State.mem_sources_of_goto goes)
  rw [Symbol.nonterminal.injEq] at file
  exact State.result_ne_sourceFile ht hp file

theorem Open.settle (hs : s.Open row) {t : TokenKind} (ht : t ≠ .ending) :
    (s.settle t).Open row :=
  reduceWhile_induction (·.Open row) (fun _ _ _ hs hp hr => hs.reduce? ht hp hr) _ s hs

theorem Open.complete (hs : s.Open row) : s.complete.Open row := by
  apply reduceWhile_induction (·.Open row) _ _ s hs
  intro s p s' hs hp hr
  obtain ⟨t, ht, hp⟩ := State.reduction?_of_completion? hp
  exact hs.reduce? ht hp hr

theorem Open.shift {t : Token} {next : State} {missing : Bool} (hs : s.Open row)
    (h : s.state.shift? t.kind = some next) (formed : (Tree.leaf t missing).Formed) :
    Open (⟨.leaf t missing, next⟩ :: s) (row ++ [.leaf t missing]) := by
  refine ⟨⟨hs.viable.shift h missing, ?_, ?_⟩, ?_⟩
  · exact forall_trees_cons.2 ⟨hs.formed, formed⟩
  · rw [trees_cons, Tree.leavesRow_append, hs.leaves]
    simp [Tree.leaves]
  · intro finished
    have source := State.mem_sources_of_shift? h
    rw [show next = .finished from finished] at source
    cases State.eq_of_mem_sources_finished source

theorem Open.comment {t : Token} (hs : s.Open row) (h : t.kind = .comment) :
    Open (⟨.ofToken t, s.state⟩ :: s) (row ++ [.ofToken t]) := by
  have extra : (Tree.ofToken t).isExtra = true := by simp [Tree.ofToken, Tree.isExtra, h]
  refine ⟨⟨.extra extra hs.viable, ?_, ?_⟩, hs.unfinished⟩
  · exact forall_trees_cons.2 ⟨hs.formed, .ofToken (by simp [h])⟩
  · rw [trees_cons, Tree.leavesRow_append, hs.leaves]
    simp

theorem Open.takeError (hs : s.Open row) :
    ∃ broken below, s.takeError = (broken, below) ∧
      Tree.leavesRow (below.trees ++ broken) = row ∧
      ∀ t ∈ below.trees ++ broken, t.Formed ∧ t.isPart = true := by
  unfold Stack.takeError
  split
  · next whole span children st below =>
      have formed : (Tree.node (.error whole) span children).Formed :=
        hs.formed _ (by simp)
      have leaves := hs.leaves
      rw [trees_cons, Tree.leavesRow_append] at leaves
      refine ⟨children, below, rfl, ?_, ?_⟩
      · rw [Tree.leavesRow_append, ← leaves]
        simp [Tree.leaves]
      · intro t ht
        rcases List.mem_append.1 ht with ht | ht
        · have mem : t ∈ trees (⟨.node (.error whole) span children, st⟩ :: below) := by simp [ht]
          exact ⟨hs.formed t mem, hs.parts t mem⟩
        · exact ⟨formed.children t ht, formed.parts t ht⟩
  · refine ⟨[], s, rfl, by rw [List.append_nil, hs.leaves], ?_⟩
    intro t ht
    rw [List.append_nil] at ht
    exact ⟨hs.formed t ht, hs.parts t ht⟩

theorem Open.pushError {more : List Tree} (hs : s.Open row)
    (formed : ∀ t ∈ more, t.Formed ∧ t.isPart = true) (counts : ∃ t ∈ more, t.isExtra = false) :
    (s.pushError more).Open (row ++ Tree.leavesRow more) ∧ (s.pushError more).state = s.state := by
  obtain ⟨viable, same⟩ := hs.viable.pushError more
  obtain ⟨broken, below, taken, leaves, all⟩ := hs.takeError
  obtain ⟨u, mem, hu⟩ := counts
  have ne : (Tree.splitTrailing (broken ++ more)).1 ≠ [] :=
    Tree.splitTrailing_ne_nil (List.mem_append_right _ mem) hu
  have split := Tree.splitTrailing_append (broken ++ more)
  have last := Tree.splitTrailing_getLast? (broken ++ more)
  have pushed : s.pushError more = pushAll below s.state
      ([.ofChildren (.error false) (position below) (Tree.splitTrailing (broken ++ more)).1] ++
        (Tree.splitTrailing (broken ++ more)).2) := by
    simp [Stack.pushError, taken, ne]
  generalize Tree.splitTrailing (broken ++ more) = halves at *
  obtain ⟨body, extras⟩ := halves
  simp only at ne split last pushed
  have known : ∀ t ∈ body ++ extras, t.Formed ∧ t.isPart = true := by
    rw [split]
    intro t ht
    rcases List.mem_append.1 ht with ht | ht
    · exact all t (List.mem_append_right _ ht)
    · exact formed t ht
  -- the last tree that counts stays in the error, so the error is not empty
  have admits : (Label.error false).Admits body := by
    obtain ⟨t, ht⟩ := Option.isSome_iff_exists.1 (List.getLast?_isSome.2 ne)
    exact ⟨t, List.mem_of_getLast? ht, last t ht⟩
  have node : (Tree.ofChildren (.error false) (position below) body).Formed :=
    .ofChildren _ admits (fun t ht => (known t (List.mem_append_left _ ht)).2)
      fun t ht => (known t (List.mem_append_left _ ht)).1
  refine ⟨⟨⟨viable, ?_, ?_⟩, ?_⟩, same⟩
  · intro t ht
    rw [pushed, trees_pushAll] at ht
    simp only [List.mem_append, List.mem_singleton] at ht
    rcases ht with ht | rfl | ht
    · exact (all t (List.mem_append_left _ ht)).1
    · exact node
    · exact (known t (List.mem_append_right _ ht)).1
  · have whole : Tree.leavesRow body ++ Tree.leavesRow extras =
        Tree.leavesRow broken ++ Tree.leavesRow more := by
      rw [← Tree.leavesRow_append, split, Tree.leavesRow_append]
    rw [pushed, trees_pushAll, ← leaves]
    simp [whole]
  · rw [same]
    exact hs.unfinished

end Steps

end Stack

/-! ## Skipping -/

/-- What is being skipped is well formed, and a run of skipped tokens counts. -/
structure Skipping.Formed (k : Skipping) : Prop where
  row : ∀ t ∈ k.row, t.Formed ∧ t.isPart = true
  counts : k.run.isExtra = false

namespace Skipping

theorem isExtra_ofToken {t : Token} (ending : t.kind ≠ .ending) (comment : t.kind ≠ .comment) :
    (Tree.ofToken t).isExtra = false := by
  simp [Tree.ofToken, Tree.isExtra, comment, ending]

theorem Formed.start {t : Token} (ending : t.kind ≠ .ending) (comment : t.kind ≠ .comment) :
    (start t).Formed := by
  have token : (Tree.ofToken t).Formed := .ofToken ending
  refine ⟨?_, rfl⟩
  intro u hu
  obtain rfl := List.mem_singleton.1 hu
  refine ⟨.ofChildren _ ⟨_, List.mem_singleton_self _, isExtra_ofToken ending comment⟩ ?_ ?_, rfl⟩
  · simp [Tree.ofToken, Tree.isPart]
  · simpa using token

theorem Formed.skip {k : Skipping} {t : Token} (hk : k.Formed) (ending : t.kind ≠ .ending)
    (comment : t.kind ≠ .comment) : (k.skip t).Formed := by
  have last := (Formed.start ending comment).row (Skipping.start t).run List.mem_cons_self
  have all : ∀ u ∈ k.row ++ [(Skipping.start t).run], u.Formed ∧ u.isPart = true := by
    intro u hu
    rcases List.mem_append.1 hu with hu | hu
    · exact hk.row u hu
    · exact List.mem_singleton.1 hu ▸ last
  refine ⟨?_, rfl⟩
  intro u hu
  obtain rfl := List.mem_singleton.1 hu
  refine ⟨.ofChildren _ ⟨k.run, by simp [Skipping.row], hk.counts⟩ (fun u hu => (all u hu).2)
    fun u hu => (all u hu).1, rfl⟩

theorem Formed.comment {k : Skipping} {t : Token} (hk : k.Formed) (h : t.kind = .comment) :
    (k.comment t).Formed := by
  refine ⟨?_, hk.counts⟩
  intro u hu
  have split : (k.comment t).row = k.row ++ [.ofToken t] := rfl
  rw [split] at hu
  rcases List.mem_append.1 hu with hu | hu
  · exact hk.row u hu
  · exact List.mem_singleton.1 hu ▸ ⟨.ofToken (by simp [h]), rfl⟩

end Skipping

/-! ## Progress -/

namespace Progress

/-- The leaves on the stack and in what is being skipped are those of the given row. -/
def Holds (p : Progress) (row : List Tree) : Prop :=
  match p.skipping with
  | none => p.stack.Open row
  | some k => k.Formed ∧ ∃ read, p.stack.Open read ∧ row = read ++ Tree.leavesRow k.row

theorem Holds.start : start.Holds [] :=
  Stack.Open.nil

variable {row : List Tree} {t : Token}

theorem readToken_holds {s : Stack} (hs : s.Open row) (ht : t.kind ≠ .ending) :
    (readToken s t).Holds (row ++ [.ofToken t]) := by
  unfold readToken
  by_cases comment : t.kind = .comment
  · rw [if_pos comment]
    exact hs.comment comment
  · rw [if_neg comment]
    have settled := hs.settle ht
    cases hn : (s.settle t.kind).state.shift? t.kind with
    | some next =>
        simp only [hn]
        exact settled.shift hn (.ofToken ht)
    | none =>
        simp only [hn]
        exact ⟨.start ht comment, row, settled.complete, by simp [Skipping.row, Skipping.start]⟩

theorem resume_holds {s : Stack} {k : Skipping} (hs : s.Open row) (hk : k.Formed)
    (ht : t.kind ≠ .ending) :
    (resume s k t).Holds (row ++ Tree.leavesRow k.row ++ [.ofToken t]) := by
  unfold resume
  by_cases comment : t.kind = .comment
  · rw [if_pos comment]
    exact ⟨hk.comment comment, row, hs, by simp [Skipping.row, Skipping.comment]⟩
  · rw [if_neg comment]
    cases hn : s.state.shift? t.kind with
    | some next =>
        obtain ⟨opened, same⟩ := hs.pushError hk.row ⟨k.run, by simp [Skipping.row], hk.counts⟩
        rw [← same] at hn
        exact opened.shift hn (.ofToken ht)
    | none =>
        exact ⟨hk.skip ht comment, row, hs,
          by simp [Skipping.row, Skipping.skip, Skipping.start]⟩

theorem read_holds {p : Progress} (hp : p.Holds row) (ht : t.kind ≠ .ending) :
    (p.read t).Holds (row ++ [.ofToken t]) := by
  obtain ⟨s, skipping⟩ := p
  cases skipping with
  | none => exact readToken_holds hp ht
  | some k =>
      obtain ⟨hk, read, hs, rfl⟩ := hp
      exact resume_holds hs hk ht

theorem foldl_read_holds {p : Progress} {rest : List Token} (hp : p.Holds row)
    (h : ∀ t ∈ rest, t.kind ≠ .ending) :
    (rest.foldl read p).Holds (row ++ rest.map .ofToken) := by
  induction rest generalizing p row with
  | nil => simpa using hp
  | cons t rest ih =>
      have next := read_holds hp (h t List.mem_cons_self)
      have all := ih next fun u hu => h u (List.mem_cons_of_mem _ hu)
      simpa using all

/-- Reading any row of tokens loses, doubles and moves none of them. -/
theorem readAll_holds {tokens : List Token} (h : ∀ t ∈ tokens, t.kind ≠ .ending) :
    (readAll tokens).Holds (tokens.map .ofToken) :=
  foldl_read_holds .start h

end Progress

end MettaSyntax
