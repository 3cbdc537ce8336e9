import MettaSyntax.Parse.Stack
import MettaSyntax.Proofs.Automaton
import MettaSyntax.Proofs.Formed

/-! # Viable stacks

On a viable stack every tree leads along an edge of the parse table from the state below it to its
own, and an extra changes nothing.  In a state in which a production is complete, the trees on top
of a viable stack spell the production's right-hand side, and the state below them has somewhere to
go: a reduction that the table asks for never fails. -/

set_option autoImplicit false

namespace MettaSyntax

namespace Stack

@[simp] theorem trees_nil : trees [] = [] := rfl

@[simp] theorem trees_cons (f : Frame) (s : Stack) : trees (f :: s) = trees s ++ [f.tree] := by
  simp [trees]

theorem forall_trees_cons {f : Frame} {s : Stack} {P : Tree → Prop} :
    (∀ t ∈ trees (f :: s), P t) ↔ (∀ t ∈ trees s, P t) ∧ P f.tree := by
  rw [trees_cons, List.forall_mem_append, List.forall_mem_singleton]

theorem trees_append (s below : Stack) : trees (s ++ below) = trees below ++ trees s := by
  simp [trees]

theorem trees_pushAll (s : Stack) (state : State) (row : List Tree) :
    (pushAll s state row).trees = s.trees ++ row := by
  induction row generalizing s with
  | nil => simp [pushAll]
  | cons t row ih =>
      have step : pushAll s state (t :: row) = pushAll (⟨t, state⟩ :: s) state row := rfl
      rw [step, ih]
      simp

/-- Every tree on the stack leads along an edge of the table. -/
inductive Viable : Stack → Prop
  | nil : Viable []
  | extra {s : Stack} {t : Tree} (h : t.isExtra = true) (hs : Viable s) :
      Viable (⟨t, state s⟩ :: s)
  | step {s : Stack} {f : Frame} (h : f.tree.isExtra = false)
      (edge : (state s).step? f.tree.symbol = some f.state) (hs : Viable s) : Viable (f :: s)

theorem Viable.pushAll {s : Stack} {state : State} {row : List Tree} (hs : Viable s)
    (hstate : s.state = state) (h : ∀ t ∈ row, t.isExtra = true) :
    Viable (Stack.pushAll s state row) ∧ (Stack.pushAll s state row).state = state := by
  induction row generalizing s with
  | nil => exact ⟨hs, hstate⟩
  | cons t row ih =>
      have next : Viable (⟨t, state⟩ :: s) := hstate ▸ Viable.extra (h t List.mem_cons_self) hs
      exact ih next rfl fun u hu => h u (List.mem_cons_of_mem _ hu)

/-- `Takes xs s below`: the trees on `s` above `below` count as the symbols `xs`, and begin with one
that is counted. -/
structure Takes (xs : List Symbol) (s below : Stack) (row : List Tree) : Prop where
  viable : Viable below
  trees : s.trees = below.trees ++ row
  counted : Tree.counted row = xs
  head : ∀ t ∈ row.head?, t.isExtra = false
  pop : ∀ n rest, Stack.pop (xs.length + n) s rest = Stack.pop n below (row ++ rest)

theorem Takes.refl {s : Stack} (h : Viable s) : Takes [] s s [] :=
  ⟨h, by simp, rfl, by simp, by simp⟩

theorem Takes.trans {xs ys : List Symbol} {s mid below : Stack} {row row' : List Tree}
    (h : Takes xs s mid row) (h' : Takes ys mid below row') (hne : ys ≠ []) :
    Takes (ys ++ xs) s below (row' ++ row) where
  viable := h'.viable
  trees := by rw [h.trees, h'.trees, List.append_assoc]
  counted := by rw [Tree.counted_append, h.counted, h'.counted]
  head := by
    intro t ht
    rw [Tree.head?_append_of_counted (h'.counted ▸ hne)] at ht
    exact h'.head t ht
  pop := by
    intro n rest
    rw [List.length_append, Nat.add_comm ys.length, Nat.add_assoc, h.pop, h'.pop,
      List.append_assoc]

/-- An extra on top of a stack is taken along. -/
theorem Takes.extra {xs : List Symbol} {s below : Stack} {row : List Tree} {t : Tree}
    (h : Takes xs s below row) (hne : xs ≠ []) (extra : t.isExtra = true) (state : State) :
    Takes xs (⟨t, state⟩ :: s) below (row ++ [t]) where
  viable := h.viable
  trees := by rw [trees_cons, h.trees, List.append_assoc]
  counted := by rw [Tree.counted_append, h.counted, Tree.counted_cons_extra extra, Tree.counted_nil,
    List.append_nil]
  head := by
    intro u hu
    rw [Tree.head?_append_of_counted (h.counted ▸ hne)] at hu
    exact h.head u hu
  pop := by
    intro n rest
    obtain ⟨m, length⟩ : ∃ m, xs.length = m + 1 :=
      Nat.exists_eq_succ_of_ne_zero (by simpa using hne)
    have taken := h.pop n (t :: rest)
    have more : xs.length + n = m + n + 1 := by omega
    rw [more] at taken ⊢
    rw [Stack.pop, if_pos extra, taken, List.append_assoc]
    rfl

/-- A viable stack that has left the start carries a counted tree on top, with extras above it. -/
theorem Viable.top {s : Stack} (hs : Viable s) (h : s.state ≠ .start) :
    ∃ x below row, Takes [x] s below row ∧ (below.state, x) ∈ s.state.sources := by
  induction hs with
  | nil => exact absurd rfl h
  | @extra s t ht hs ih =>
      obtain ⟨x, below, row, taken, source⟩ := ih h
      exact ⟨x, below, row ++ [t], taken.extra (by simp) ht _, source⟩
  | @step s f hf edge hs ih =>
      refine ⟨f.tree.symbol, s, [f.tree], ⟨hs, ?_, ?_, ?_, ?_⟩, State.mem_sources_of_step? edge⟩
      · simp
      · rw [Tree.counted_cons hf]
        rfl
      · simpa using hf
      · intro n rest
        rw [List.length_singleton, Nat.add_comm, Stack.pop, if_neg (by simp [hf])]
        rfl

theorem Viable.single {s : Stack} {b : State} {x : Symbol} (hs : Viable s)
    (h : s.state.sources = [(b, x)]) :
    ∃ below row, Takes [x] s below row ∧ below.state = b := by
  have moved : s.state ≠ .start := by
    intro start
    rw [start] at h
    cases h
  obtain ⟨y, below, row, taken, source⟩ := hs.top moved
  rw [h, List.mem_singleton, Prod.mk.injEq] at source
  obtain ⟨base, rfl⟩ := source
  exact ⟨below, row, taken, base⟩

/-! ## What lies on the stack in each state -/

section Sources

variable {s : Stack} {e : Element}

theorem Viable.opened (hs : Viable s) (h : s.state = .opened) :
    ∃ below row, Takes [.token .opening] s below row ∧ below.state ∈ State.bases := by
  obtain ⟨x, below, row, taken, source⟩ := hs.top (by simp [h])
  simp only [h, State.sources, List.mem_map, Prod.mk.injEq] at source
  obtain ⟨_, base, rfl, rfl⟩ := source
  exact ⟨below, row, taken, base⟩

theorem Viable.headed (hs : Viable s) (h : s.state = .headed e) :
    ∃ below row, Takes [.token .opening, e.symbol] s below row ∧ below.state ∈ State.bases := by
  have edge : s.state.sources = [(.opened, e.symbol)] := by rw [h]; rfl
  obtain ⟨mid, row, taken, reached⟩ := hs.single edge
  obtain ⟨below, row', taken', base⟩ := taken.viable.opened reached
  exact ⟨below, row' ++ row, taken.trans taken' (by simp), base⟩

theorem Viable.applied (hs : Viable s) (h : s.state = .applied e) :
    ∃ below row, Takes [.token .opening, e.symbol, .nonterminal .arguments] s below row ∧
      below.state ∈ State.bases := by
  have edge : s.state.sources = [(.headed e, .nonterminal .arguments)] := by rw [h]; rfl
  obtain ⟨mid, row, taken, reached⟩ := hs.single edge
  obtain ⟨below, row', taken', base⟩ := taken.viable.headed reached
  exact ⟨below, row' ++ row, taken.trans taken' (by simp), base⟩

theorem Viable.sequence (hs : Viable s) (h : s.state = .sequence) :
    ∃ below row, Takes [.nonterminal .expressions] s below row ∧ below.state = .start := by
  have edge : s.state.sources = [(.start, .nonterminal .expressions)] := by rw [h]; rfl
  exact hs.single edge

theorem Viable.finished (hs : Viable s) (h : s.state = .finished) :
    ∃ below row, Takes [.nonterminal .sourceFile] s below row ∧ below.state = .start := by
  have edge : s.state.sources = [(.start, .nonterminal .sourceFile)] := by rw [h]; rfl
  exact hs.single edge

end Sources

/-! ## Every reduction that the table asks for goes through -/

/-- The trees on top of a stack spell a production, and the state below them goes on with what the
production builds. -/
def Completes (s : Stack) (p : Production) : Prop :=
  ∃ xs below row next, Takes xs s below row ∧ p.spells xs = true ∧
    below.state.goto p.result = some next

theorem Production.isElement_symbol (e : Element) : Production.isElement e.symbol = true := by
  cases e <;> rfl

theorem Completes.ofList {s mid below : Stack} {p : Production} {xs : List Symbol}
    {row row' : List Tree} (list : p.result = .list)
    (taken : Takes [.token .closing] s mid row) (taken' : Takes xs mid below row')
    (spelt : p.spells (xs ++ [.token .closing]) = true) (hne : xs ≠ [])
    (base : below.state ∈ State.bases) : Completes s p := by
  obtain ⟨next, goes⟩ := (State.goto_of_mem_bases base).1
  exact ⟨_, below, row' ++ row, next, taken.trans taken' hne, spelt, list ▸ goes⟩

theorem Completes.nextArgument {s : Stack} {e h : Element} (hs : Viable s)
    (reached : s.state = .applied h) {t : Stack} {row : List Tree}
    (taken : Takes [e.symbol] t s row) : Completes t .nextArgument := by
  have edge : s.state.sources = [(.headed h, .nonterminal .arguments)] := by rw [reached]; rfl
  obtain ⟨below, row', taken', base⟩ := hs.single edge
  exact ⟨_, below, row' ++ row, .applied h, taken.trans taken' (by simp),
    Production.isElement_symbol e, by rw [base]; rfl⟩

theorem Viable.completes {s : Stack} {p : Production} (hs : Viable s)
    (hp : s.state.production? = some p) : Completes s p := by
  cases hstate : s.state with
  | start =>
      rw [hstate] at hp
      cases hp
      exact ⟨[], s, [], .finished, .refl hs, rfl, by rw [hstate]; rfl⟩
  | sequence =>
      rw [hstate] at hp
      cases hp
      obtain ⟨below, row, taken, base⟩ := hs.sequence hstate
      exact ⟨_, below, row, .finished, taken, rfl, by rw [base]; rfl⟩
  | finished => rw [hstate] at hp; cases hp
  | firstOf e =>
      rw [hstate] at hp
      cases hp
      have edge : s.state.sources = [(.start, e.symbol)] := by rw [hstate]; rfl
      obtain ⟨below, row, taken, base⟩ := hs.single edge
      exact ⟨_, below, row, .sequence, taken, Production.isElement_symbol e, by rw [base]; rfl⟩
  | nextOf e =>
      rw [hstate] at hp
      cases hp
      have edge : s.state.sources = [(.sequence, e.symbol)] := by rw [hstate]; rfl
      obtain ⟨mid, row, taken, reached⟩ := hs.single edge
      obtain ⟨below, row', taken', base⟩ := taken.viable.sequence reached
      exact ⟨_, below, row' ++ row, .sequence, taken.trans taken' (by simp),
        Production.isElement_symbol e, by rw [base]; rfl⟩
  | word k =>
      rw [hstate] at hp
      cases hp
      obtain ⟨x, below, row, taken, source⟩ := hs.top (by simp [hstate])
      simp only [hstate, State.sources, List.mem_map, Prod.mk.injEq] at source
      obtain ⟨_, base, rfl, rfl⟩ := source
      obtain ⟨next, goes⟩ := (State.goto_of_mem_bases base).2
      exact ⟨_, below, row, next, taken, rfl, goes⟩
  | opened => rw [hstate] at hp; cases hp
  | headed e => rw [hstate] at hp; cases hp
  | applied e => rw [hstate] at hp; cases hp
  | firstArgument e =>
      rw [hstate] at hp
      cases hp
      obtain ⟨x, below, row, taken, source⟩ := hs.top (by simp [hstate])
      simp only [hstate, State.sources, List.mem_cons, List.not_mem_nil, or_false,
        Prod.mk.injEq] at source
      obtain ⟨base, rfl⟩ | ⟨base, rfl⟩ := source
      · exact ⟨_, below, row, .applied .list, taken, Production.isElement_symbol e,
          by rw [base]; rfl⟩
      · exact ⟨_, below, row, .applied .atom, taken, Production.isElement_symbol e,
          by rw [base]; rfl⟩
  | nextArgument e =>
      rw [hstate] at hp
      cases hp
      obtain ⟨x, mid, row, taken, source⟩ := hs.top (by simp [hstate])
      simp only [hstate, State.sources, List.mem_cons, List.not_mem_nil, or_false,
        Prod.mk.injEq] at source
      obtain ⟨reached, rfl⟩ | ⟨reached, rfl⟩ := source
      · exact Completes.nextArgument taken.viable reached taken
      · exact Completes.nextArgument taken.viable reached taken
  | closedEmpty =>
      rw [hstate] at hp
      cases hp
      have edge : s.state.sources = [(.opened, .token .closing)] := by rw [hstate]; rfl
      obtain ⟨mid, row, taken, reached⟩ := hs.single edge
      obtain ⟨below, row', taken', base⟩ := taken.viable.opened reached
      exact Completes.ofList rfl taken taken' rfl (by simp) base
  | closedHead e =>
      rw [hstate] at hp
      cases hp
      have edge : s.state.sources = [(.headed e, .token .closing)] := by rw [hstate]; rfl
      obtain ⟨mid, row, taken, reached⟩ := hs.single edge
      obtain ⟨below, row', taken', base⟩ := taken.viable.headed reached
      exact Completes.ofList rfl taken taken' (Production.isElement_symbol e) (by simp) base
  | closedFull e =>
      rw [hstate] at hp
      cases hp
      have edge : s.state.sources = [(.applied e, .token .closing)] := by rw [hstate]; rfl
      obtain ⟨mid, row, taken, reached⟩ := hs.single edge
      obtain ⟨below, row', taken', base⟩ := taken.viable.applied reached
      exact Completes.ofList rfl taken taken' (Production.isElement_symbol e) (by simp) base

/-- What a reduction does to a viable stack: it puts one tree in the place of those that spell its
production, and the extras above them on top of it. -/
def Reduced (s : Stack) (p : Production) (s' : Stack) : Prop :=
  ∃ (below : Stack) (body extras : List Tree) (next : State),
    s' = pushAll (⟨.ofChildren (.production p) s.position body, next⟩ :: below) next extras ∧
    s.trees = below.trees ++ body ++ extras ∧
    (Label.production p).Admits body ∧
    (∀ t ∈ extras, t.isExtra = true) ∧
    below.Viable ∧ below.state.goto p.result = some next

/-- A reduction leads to a viable stack, whose state is where the production leads from some state. -/
theorem Reduced.viable {s s' : Stack} {p : Production} (h : Reduced s p s') :
    s'.Viable ∧ ∃ b : State, b.goto p.result = some s'.state := by
  obtain ⟨below, body, extras, next, rfl, -, -, extra, viable, goes⟩ := h
  have base : Viable (⟨.ofChildren (.production p) s.position body, next⟩ :: below) :=
    .step rfl goes viable
  have top : state (⟨.ofChildren (.production p) s.position body, next⟩ :: below) = next := rfl
  obtain ⟨pushed, same⟩ := base.pushAll top extra
  refine ⟨pushed, below.state, ?_⟩
  rw [same]
  exact goes

theorem Takes.popped {s below : Stack} {p : Production} {xs : List Symbol} {row : List Tree}
    (taken : Takes xs s below row) (spelt : p.spells xs = true) :
    Stack.pop p.arity s [] = (row, below) := by
  have all := taken.pop 0 []
  rwa [Nat.add_zero, Production.length_of_spells spelt, Stack.pop, List.append_nil] at all

/-- What a reduction of a stack leads to when the trees on top of it spell the production. -/
theorem Takes.reduce? {s below : Stack} {p : Production} {xs : List Symbol} {row : List Tree}
    {next : State} (taken : Takes xs s below row) (spelt : p.spells xs = true)
    (goes : below.state.goto p.result = some next) :
    s.reduce? p = some (pushAll
      (⟨.ofChildren (.production p) s.position (Tree.splitTrailing row).1, next⟩ :: below) next
      (Tree.splitTrailing row).2) := by
  simp [Stack.reduce?, taken.popped spelt, goes]

theorem Viable.reduce? {s : Stack} {p : Production} (hs : Viable s)
    (hp : s.state.production? = some p) : ∃ s', s.reduce? p = some s' ∧ Reduced s p s' := by
  obtain ⟨xs, below, row, next, taken, spelt, goes⟩ := hs.completes hp
  refine ⟨_, taken.reduce? spelt goes, below, (Tree.splitTrailing row).1,
    (Tree.splitTrailing row).2, next, rfl, ?_, ⟨?_, ?_⟩, ?_, taken.viable, goes⟩
  · rw [taken.trees, List.append_assoc, Tree.splitTrailing_append]
  · rw [Tree.counted_splitTrailing, taken.counted]
    exact spelt
  · exact Tree.splitTrailing_tight taken.head
  · exact Tree.splitTrailing_extra row

theorem Viable.reduced {s s' : Stack} {p : Production} (hs : Viable s)
    (hp : s.state.production? = some p) (h : s.reduce? p = some s') : Reduced s p s' := by
  obtain ⟨u, hu, reduced⟩ := hs.reduce? hp
  rw [h, Option.some.injEq] at hu
  exact hu ▸ reduced

end Stack

end MettaSyntax
