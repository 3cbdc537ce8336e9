import MettaSyntax.Proofs.Nesting

/-! # Stacks that grow by tokens

As long as no token is unwelcome a stack takes one after the other, and completes productions in
between.  What can be collected from the trees of a stack no matter how they are put together is then
told by the tokens, and so is the depth to which the stack leads. -/

set_option autoImplicit false

namespace MettaSyntax

namespace Stack

/-- A way to collect something from a row of trees, for which a production stands for its children. -/
structure Gathers {α : Type} (op : α → α → α) (f : List Tree → α) : Prop where
  append : ∀ xs ys, f (xs ++ ys) = op (f xs) (f ys)
  production : ∀ p span row, f [.node (.production p) span row] = f row

/-- A stack comes from another one by taking some tokens. -/
inductive Grows (s : Stack) : List Token → Stack → Prop
  | refl : Grows s [] s
  | shift {ts : List Token} {u : Stack} (t : Token) (next : State) (h : Grows s ts u) :
      Grows s (ts ++ [t]) (⟨.ofToken t, next⟩ :: u)
  | reduce {ts : List Token} {u u' : Stack} {p : Production} (h : Grows s ts u)
      (reduced : Reduced u p u') : Grows s ts u'

variable {s s' : Stack} {row : List Tree} {p : Production} {ts : List Token}

theorem Grows.trans {u : Stack} {us : List Token} (h : Grows s ts s') (h' : Grows s' us u) :
    Grows s (ts ++ us) u := by
  induction h' with
  | refl => rwa [List.append_nil]
  | shift t next h' ih =>
      rw [← List.append_assoc]
      exact .shift t next ih
  | reduce h' reduced ih => exact .reduce ih reduced

theorem Grows.settle (held : s.Holds row) (t : TokenKind) : Grows s [] (s.settle t) :=
  held.settle_of (P := Grows s []) (fun _ _ _ h reduced => .reduce h reduced) .refl t

theorem Grows.complete (held : s.Holds row) : Grows s [] s.complete :=
  held.complete_of (P := Grows s []) (fun _ _ _ h reduced => .reduce h reduced) .refl

section Gathers

variable {α : Type} {op : α → α → α} {f : List Tree → α} (h : Gathers op f)
include h

theorem Gathers.reduced (reduced : Reduced s p s') : f s'.trees = f s.trees := by
  obtain ⟨below, body, extras, next, rfl, split, -⟩ := reduced
  rw [split, trees_pushAll, trees_cons, h.append, h.append, h.append, h.append, Tree.ofChildren,
    h.production]

theorem Gathers.grows (grows : Grows s ts s') : f s'.trees = f (s.trees ++ ts.map .ofToken) := by
  induction grows with
  | refl => rw [List.map_nil, List.append_nil]
  | @shift ts u t next grows ih =>
      rw [trees_cons, h.append, ih, ← h.append, List.map_append, List.append_assoc]
      rfl
  | reduce grows reduced ih => rw [h.reduced reduced, ih]

/-- A file shows what its stack held. -/
theorem Gathers.whole? {ending : Token} {t : Tree} (held : s.Holds row) (he : ending.kind = .ending)
    (ht : Completion.whole? s ending = some t) : f t.children = f (s.trees ++ [.ofToken ending]) := by
  obtain ⟨below, file, after, -, -, split, symbol, -, rfl⟩ := Completion.whole?_eq held he ht
  obtain ⟨q, span, row, rfl⟩ : ∃ q span row, file = .node (.production q) span row := by
    cases file with
    | leaf token missing => exact absurd symbol (Completion.symbol_leaf_ne token missing)
    | node label span row =>
        cases label with
        | production q => exact ⟨q, span, row, rfl⟩
        | error whole => cases symbol
        | skipped => cases symbol
  have settled := h.grows (Grows.settle held .ending)
  rw [List.map_nil, List.append_nil, split] at settled
  have within : f (below.trees ++ row ++ after) = f s.trees := by
    rw [← settled, ← List.singleton_append, ← List.append_assoc, h.append, h.append,
      h.append _ after, h.append below.trees [_], h.production]
  rw [Tree.ofChildren, Tree.children, Tree.children, h.append, within, ← h.append]

end Gathers

/-! ## The depth of a stack -/

/-- How many lists are open. -/
def depth? (s : Stack) : Option Nat :=
  nesting? 0 (Tree.counted s.trees)

theorem Reduced.depth? (h : Reduced s p s') : s'.depth? = s.depth? := by
  obtain ⟨below, body, extras, next, rfl, split, admits, -⟩ := h
  have node : Tree.counted [.ofChildren (.production p) s.position body] = [.nonterminal p.result] := rfl
  have neutral (d : Nat) : (Symbol.nonterminal p.result).level? d = some d := rfl
  rw [Stack.depth?, Stack.depth?, split, trees_pushAll, trees_cons, Tree.counted_append,
    Tree.counted_append, Tree.counted_append, Tree.counted_append, node]
  simp only [nesting?_append, nesting?_cons, neutral, Option.bind_some, nesting?_nil]
  congr 2
  funext d
  exact (Tree.nesting?_of_spells admits.1 d).symm

theorem Grows.depth? (h : Grows s ts s') :
    s'.depth? = s.depth?.bind (nesting? · (ts.map (·.kind.toSymbol))) := by
  induction h with
  | refl => simp
  | @shift ts u t next h ih =>
      rw [Stack.depth?, trees_cons, Tree.counted_append, nesting?_append, ← Stack.depth?, ih,
        List.map_append, Option.bind_assoc]
      congr 1
      funext d
      rw [nesting?_append]
      congr 1
      funext e
      exact (Tree.nesting?_counted e [.ofToken t]).symm
  | reduce h reduced ih => rw [reduced.depth?, ih]

end Stack

/-! ## Reading what may still be balanced -/

namespace State

/-- Outside of all lists a settled state takes every token but a closing parenthesis, and inside of
one also that. -/
theorem shift?_isSome {s : State} {t : TokenKind} (h : s.reduction? t = none)
    (unfinished : s ≠ .finished) (ending : t ≠ .ending) (comment : t ≠ .comment)
    (lexable : t ≠ .unlexable) (closes : t = .closing → s.isOutside = false) :
    ∃ next, s.shift? t = some next := by
  cases t with
  | ending => exact absurd rfl ending
  | comment => exact absurd rfl comment
  | unlexable => exact absurd rfl lexable
  | closing =>
      have inside := closes rfl
      cases s <;>
        simp [reduction?, shift?, action, structuralAction, begin, Action.production?,
          Action.next?, isOutside] at h inside ⊢
  | opening => cases s <;> first | exact absurd rfl unfinished | exact ⟨_, rfl⟩ | cases h
  | atom k => cases s <;> first | exact absurd rfl unfinished | exact ⟨_, rfl⟩ | cases h

end State

namespace Progress

open Stack

variable {s : Stack} {row : List Tree}

/-- A token that does not close a list that is not open is taken. -/
theorem readToken_grows (hs : s.Open row) {t : Token} (ending : t.kind ≠ .ending)
    (lexable : t.kind ≠ .unlexable)
    (balanced : s.depth?.bind (t.kind.toSymbol.level? ·) ≠ none) :
    ∃ s', readToken s t = ⟨s', none⟩ ∧ Grows s [t] s' := by
  unfold readToken
  by_cases comment : t.kind = .comment
  · rw [if_pos comment]
    exact ⟨_, rfl, .shift t _ .refl⟩
  · rw [if_neg comment]
    have settled := hs.settle ending
    have grows := Grows.settle hs.toHolds t.kind
    obtain ⟨d, depth, allows⟩ := settled.viable.depth
    have same : s.depth? = some d := by
      rw [← Stack.depth?, grows.depth?] at depth
      simpa using depth
    -- a closing parenthesis outside of all lists would take the depth below zero
    have closes : t.kind = .closing → (s.settle t.kind).state.isOutside = false := by
      intro closing
      by_contra outside
      apply balanced
      rw [same, allows.1 (by simpa using outside), closing]
      rfl
    obtain ⟨next, shifted⟩ := State.shift?_isSome (hs.toHolds.settled t.kind) settled.unfinished
      ending comment lexable closes
    simp only [shifted]
    exact ⟨_, rfl, .shift t next grows⟩

/-- As long as a row of tokens may still be balanced, all of it is taken. -/
theorem foldl_read_grows (hs : s.Open row) {ts : List Token} (ending : ∀ t ∈ ts, t.kind ≠ .ending)
    (lexable : ∀ t ∈ ts, t.kind ≠ .unlexable)
    (balanced : s.depth?.bind (nesting? · (ts.map (·.kind.toSymbol))) ≠ none) :
    ∃ s', ts.foldl read ⟨s, none⟩ = ⟨s', none⟩ ∧ Grows s ts s' := by
  induction ts generalizing s row with
  | nil => exact ⟨s, rfl, .refl⟩
  | cons t ts ih =>
      rw [List.map_cons] at balanced
      simp only [nesting?_cons, ← Option.bind_assoc] at balanced
      have inside := ending t List.mem_cons_self
      have first : s.depth?.bind (t.kind.toSymbol.level? ·) ≠ none := by
        intro stuck
        rw [stuck] at balanced
        exact balanced rfl
      obtain ⟨u, read, grows⟩ := readToken_grows hs inside (lexable t List.mem_cons_self) first
      have held : Holds ⟨u, none⟩ (row ++ [.ofToken t]) := read ▸ readToken_holds hs inside
      have depth : u.depth? = s.depth?.bind (t.kind.toSymbol.level? ·) := by
        simpa using grows.depth?
      rw [← depth] at balanced
      obtain ⟨s', reads, more⟩ := ih held (fun u hu => ending u (List.mem_cons_of_mem _ hu))
        (fun u hu => lexable u (List.mem_cons_of_mem _ hu)) balanced
      refine ⟨s', ?_, grows.trans more⟩
      rw [List.foldl_cons, Progress.read]
      simp only [read, reads]

end Progress

/-- Where no list is open the text may end. -/
theorem Completion.exists_whole? {ending : Token} {s : Stack} {row : List Tree} (hs : s.Open row)
    (balanced : s.depth? = some 0) : ∃ t, whole? s ending = some t := by
  have settled := hs.toHolds.settle .ending
  obtain ⟨d, depth, allows⟩ := settled.viable.depth
  rw [← Stack.depth?, (Stack.Grows.settle hs.toHolds .ending).depth?, balanced] at depth
  -- where the file is not finished a list is open, and the depth is not zero
  have finished : (s.settle .ending).state = .finished := by
    by_contra unfinished
    have inside := State.isInside_of_reduction?_ending (hs.toHolds.settled .ending) unfinished
    have deep := allows.2 inside
    simp only [List.map_nil, nesting?_nil, Option.bind_some, Option.some.injEq] at depth
    omega
  have accepts : (s.settle .ending).state.action .ending = some .accept := by
    rw [finished]
    rfl
  rw [whole?, if_pos accepts]
  exact ⟨_, rfl⟩

/-- Where a list is open the text may not end. -/
theorem Completion.whole?_eq_none {ending : Token} {s : Stack} {row : List Tree} (hs : s.Open row)
    {d : Nat} (deep : s.depth? = some (d + 1)) : whole? s ending = none := by
  have settled := hs.toHolds.settle .ending
  obtain ⟨e, depth, allows⟩ := settled.viable.depth
  rw [← Stack.depth?, (Stack.Grows.settle hs.toHolds .ending).depth?, deep] at depth
  simp only [List.map_nil, nesting?_nil, Option.bind_some, Option.some.injEq] at depth
  rw [whole?, if_neg]
  intro accepts
  have finished : (s.settle .ending).state = .finished := by
    cases state : (s.settle .ending).state <;> rw [state] at accepts <;>
      simp [State.action, State.structuralAction, State.begin] at accepts ⊢
  have shallow := allows.1 (by rw [finished]; rfl)
  omega

end MettaSyntax
