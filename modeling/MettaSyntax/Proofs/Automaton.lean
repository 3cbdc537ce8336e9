import MettaSyntax.Grammar.Table

/-! # The edges of the parse table

`State.step?` joins the shifts and the gotos of the table: where a symbol leads.  `State.sources`
reads the edges backwards, from a state to all the ways into it, and `State.production?` names the
production that is complete in a state, whatever the next token.  What lies on a viable stack is
found from its state by following the sources down. -/

set_option autoImplicit false

namespace MettaSyntax

def Element.symbol : Element → Symbol
  | .list => .nonterminal .list
  | .atom => .nonterminal .atom

namespace State

/-- Where a symbol leads from a state: a token is shifted, and a nonterminal goes on. -/
def step? (b : State) : Symbol → Option State
  | .token k => b.shift? k
  | .nonterminal n => b.goto n
  | .error => none
  | .skipped => none

/-- The states in which an element may begin. -/
def bases : List State :=
  [.start, .sequence, .opened, .headed .list, .headed .atom, .applied .list, .applied .atom]

def sources : State → List (State × Symbol)
  | .start => []
  | .sequence => [(.start, .nonterminal .expressions)]
  | .finished => [(.start, .nonterminal .sourceFile)]
  | .firstOf e => [(.start, e.symbol)]
  | .nextOf e => [(.sequence, e.symbol)]
  | .word k => bases.map (·, .token (.atom k))
  | .opened => bases.map (·, .token .opening)
  | .headed e => [(.opened, e.symbol)]
  | .applied e => [(.headed e, .nonterminal .arguments)]
  | .firstArgument e => [(.headed .list, e.symbol), (.headed .atom, e.symbol)]
  | .nextArgument e => [(.applied .list, e.symbol), (.applied .atom, e.symbol)]
  | .closedEmpty => [(.opened, .token .closing)]
  | .closedHead e => [(.headed e, .token .closing)]
  | .closedFull e => [(.applied e, .token .closing)]

def production? : State → Option Production
  | .start => some .emptyFile
  | .sequence => some .file
  | .firstOf _ => some .firstExpression
  | .nextOf _ => some .nextExpression
  | .word _ => some .atom
  | .firstArgument _ => some .firstArgument
  | .nextArgument _ => some .nextArgument
  | .closedEmpty => some .emptyList
  | .closedHead _ => some .headList
  | .closedFull _ => some .fullList
  | _ => none

theorem mem_sources_of_shift? {b s : State} {k : TokenKind} (h : b.shift? k = some s) :
    (b, Symbol.token k) ∈ s.sources := by
  cases k <;> cases b <;>
    simp [shift?, action, structuralAction, begin, Action.next?] at h <;>
    subst h <;> simp [sources, bases]
  all_goals rename_i e; cases e <;> simp

theorem mem_sources_of_goto {b s : State} {n : Nonterminal} (h : b.goto n = some s) :
    (b, Symbol.nonterminal n) ∈ s.sources := by
  cases n <;> cases b <;> simp [goto] at h <;> subst h <;>
    simp [sources, Element.symbol]
  all_goals rename_i e; cases e <;> simp

theorem mem_sources_of_step? {b s : State} {x : Symbol} (h : b.step? x = some s) :
    (b, x) ∈ s.sources := by
  cases x with
  | token k => exact mem_sources_of_shift? h
  | nonterminal n => exact mem_sources_of_goto h
  | error => simp [step?] at h
  | skipped => simp [step?] at h

theorem goto_of_mem_bases {b : State} (h : b ∈ bases) :
    (∃ s, b.goto .list = some s) ∧ ∃ s, b.goto .atom = some s := by
  simp only [bases, List.mem_cons, List.not_mem_nil, or_false] at h
  rcases h with rfl | rfl | rfl | rfl | rfl | rfl | rfl <;> exact ⟨⟨_, rfl⟩, ⟨_, rfl⟩⟩

theorem production?_of_reduction? {s : State} {t : TokenKind} {p : Production}
    (h : s.reduction? t = some p) : s.production? = some p := by
  cases s <;> cases t <;>
    simp [reduction?, action, structuralAction, begin, Action.production?] at h <;>
    subst h <;> rfl

theorem result_ne_sourceFile {s : State} {t : TokenKind} {p : Production} (ht : t ≠ .ending)
    (h : s.reduction? t = some p) : p.result ≠ .sourceFile := by
  cases s <;> cases t <;>
    simp [reduction?, action, structuralAction, begin, Action.production?] at h ht <;>
    subst h <;> simp [Production.result]

theorem reduction?_of_completion? {s : State} {p : Production} (h : s.completion? = some p) :
    ∃ t, t ≠ .ending ∧ s.reduction? t = some p := by
  obtain ⟨t, mem, ht⟩ := List.exists_of_findSome?_eq_some h
  exact ⟨t, by simpa using (List.mem_filter.1 mem).2, ht⟩

end State

end MettaSyntax
