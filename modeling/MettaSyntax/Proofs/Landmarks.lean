import MettaSyntax.Proofs.Acceptance
import MettaSyntax.Proofs.Forest

/-! # What the parser does not touch again

The landmarks of a row of trees are its tokens and its lists, as they stand in the text.  Giving trees up
as an error only moves them, and completing a list adds the list alone, so the landmarks before an
offset stay as they are once every list that was opened before it has been closed: `Stack.Keeps` says so
of a stack and is kept by every step. -/

set_option autoImplicit false

namespace MettaSyntax

namespace Tree

/-- The nodes that make up a text: its tokens and its lists. -/
def isLandmark : Tree → Bool
  | .leaf _ missing => !missing
  | .node label _ _ => label.symbol = .nonterminal .list

/-- Whether a node is a landmark before a byte offset. -/
def isEarly (e : Nat) (t : Tree) : Bool :=
  t.isLandmark && t.span.start.byte < e

/-- The landmarks of a row of trees that begin before a byte offset. -/
def landmarks (e : Nat) (row : List Tree) : List Tree :=
  (nodesRow row).filter (isEarly e)

section Rows

variable {e : Nat}

@[simp] theorem landmarks_nil : landmarks e [] = [] := rfl

@[simp] theorem landmarks_append (xs ys : List Tree) :
    landmarks e (xs ++ ys) = landmarks e xs ++ landmarks e ys := by
  rw [landmarks, nodesRow_append, List.filter_append]
  rfl

theorem landmarks_cons (t : Tree) (row : List Tree) :
    landmarks e (t :: row) =
      (if t.isEarly e then [t] else []) ++ landmarks e t.children ++ landmarks e row := by
  rw [landmarks, nodesRow, nodes_eq, List.cons_append, List.filter_cons, List.filter_append]
  split <;> rfl

/-- A node that is no landmark itself has those of its children. -/
theorem landmarks_ofChildren {label : Label} {p : Position} {children : List Tree}
    (h : (ofChildren label p children).isEarly e = false) (row : List Tree) :
    landmarks e (ofChildren label p children :: row) = landmarks e children ++ landmarks e row := by
  rw [landmarks_cons, h]
  rfl

theorem isEarly_of_later {t : Tree} (h : e ≤ t.span.start.byte) : t.isEarly e = false := by
  simp [isEarly, Nat.not_lt.2 h]

theorem landmarks_of_later {token : Token} {missing : Bool} (h : e ≤ token.span.start.byte) :
    landmarks e [leaf token missing] = [] := by
  rw [landmarks_cons, isEarly_of_later h]
  rfl

theorem landmarks_missingAt (kind : TokenKind) (p : Position) :
    landmarks e [missingAt kind p] = [] := by
  rw [landmarks_cons]
  rfl

theorem isEarly_of_symbol {label : Label} (h : label.symbol ≠ .nonterminal .list) (p : Position)
    (row : List Tree) : (ofChildren label p row).isEarly e = false := by
  simp [isEarly, ofChildren, isLandmark, h]

end Rows

theorem hull_start (p : Position) (t : Tree) (row : List Tree) :
    (hull p (t :: row)).start = t.span.start := by
  rw [hull, List.getLast?_cons]
  rfl

/-- The place of a node whose children are there is theirs. -/
theorem ofChildren_of_ne_nil {label : Label} {row : List Tree} (h : row ≠ []) (p q : Position) :
    ofChildren label p row = ofChildren label q row := by
  obtain ⟨t, rest, rfl⟩ := List.exists_cons_of_ne_nil h
  rw [ofChildren, ofChildren, hull, hull, List.getLast?_cons]
  rfl

theorem symbol_ne_opening_of_isExtra {t : Tree} (h : t.isExtra = true) :
    t.symbol ≠ .token .opening := by
  cases t with
  | leaf token missing =>
      simp only [isExtra, Bool.or_eq_true, decide_eq_true_eq] at h
      rw [symbol]
      rcases h with comment | ending
      · simp [comment, TokenKind.toSymbol]
      · simp [ending, TokenKind.toSymbol]
  | node label span children => cases label <;> simp [symbol, Label.symbol]

end Tree

namespace Stack

open MettaSyntax.Tree

/-- The landmarks of a stack before an offset are the given ones, and no list is open that begins
before it. -/
structure Keeps (e : Nat) (marks : List Tree) (s : Stack) : Prop where
  landmarks : landmarks e s.trees = marks
  later : ∀ t ∈ s.trees, t.symbol = .token .opening → e ≤ t.span.start.byte

section Steps

variable {e : Nat} {marks row : List Tree} {s s' : Stack}

theorem Keeps.push {f : Frame} (hs : s.Keeps e marks) (quiet : Tree.landmarks e [f.tree] = [])
    (later : f.tree.symbol = .token .opening → e ≤ f.tree.span.start.byte) :
    Keeps e marks (f :: s) := by
  refine ⟨?_, forall_trees_cons.2 ⟨hs.later, later⟩⟩
  rw [trees_cons, landmarks_append, quiet, List.append_nil, hs.landmarks]

theorem Keeps.token {t : Token} (hs : s.Keeps e marks) (later : e ≤ t.span.start.byte)
    (state : State) : Keeps e marks (⟨.ofToken t, state⟩ :: s) :=
  hs.push (landmarks_of_later later) fun _ => later

/-- Taking trees into a node that is no landmark leaves the landmarks as they are. -/
theorem landmarks_pushNode {below : Stack} {label : Label} {p : Position} {body : List Tree}
    (early : (ofChildren label p body).isEarly e = false) (next : State) (extras : List Tree) :
    landmarks e (pushAll (⟨ofChildren label p body, next⟩ :: below) next extras).trees =
      landmarks e (below.trees ++ body ++ extras) := by
  rw [trees_pushAll, trees_cons]
  simp [landmarks_ofChildren early]

/-- A list that is completed begins with its opening parenthesis, and any other node is no landmark. -/
theorem Keeps.reduced {p : Production} (hs : s.Keeps e marks) (h : Reduced s p s') :
    s'.Keeps e marks := by
  obtain ⟨below, body, extras, next, rfl, split, admits, extra, -⟩ := h
  have later := hs.later
  rw [split] at later
  simp only [List.mem_append] at later
  have early : (ofChildren (.production p) s.position body).isEarly e = false := by
    by_cases list : p.result = .list
    · obtain ⟨inner, spelt, -⟩ := inside_of_spells list admits.1
      obtain ⟨first, rest, rfl, -, opening, -⟩ := exists_head_of_counted admits.2.1 spelt
      apply isEarly_of_later
      rw [ofChildren, Tree.span, hull_start]
      exact later first (.inl (.inr List.mem_cons_self)) opening
    · apply isEarly_of_symbol
      simpa [Label.symbol] using list
  refine ⟨?_, ?_⟩
  · rw [landmarks_pushNode early, ← split, hs.landmarks]
  · intro t ht
    rw [trees_pushAll, trees_cons] at ht
    simp only [List.mem_append, List.mem_singleton] at ht
    rcases ht with (ht | rfl) | ht
    · exact later t (.inl (.inl ht))
    · intro opening
      cases opening
    · exact later t (.inr ht)

theorem Keeps.settle (hs : s.Keeps e marks) (held : s.Holds row) (t : TokenKind) :
    (s.settle t).Keeps e marks :=
  held.settle_of (fun _ _ _ => Keeps.reduced) hs t

theorem Keeps.complete (hs : s.Keeps e marks) (held : s.Holds row) : s.complete.Keeps e marks :=
  held.complete_of (fun _ _ _ => Keeps.reduced) hs

theorem takeError_eq (s : Stack) :
    s.takeError = ([], s) ∨ ∃ whole span children state below,
      s = ⟨.node (.error whole) span children, state⟩ :: below ∧ s.takeError = (children, below) := by
  unfold takeError
  split
  · exact .inr ⟨_, _, _, _, _, rfl, rfl⟩
  · exact .inl rfl

theorem landmarks_takeError (s : Stack) :
    landmarks e s.takeError.2.trees ++ landmarks e s.takeError.1 = landmarks e s.trees := by
  rcases takeError_eq s with none | ⟨whole, span, children, state, below, rfl, taken⟩
  · rw [none, landmarks_nil, List.append_nil]
  · rw [taken, trees_cons, landmarks_append, landmarks_cons]
    simp [isEarly, isLandmark, Label.symbol, Tree.children]

/-- Giving trees up as an error moves them, and nothing else. -/
theorem landmarks_pushError (s : Stack) (more : List Tree) :
    landmarks e (s.pushError more).trees = landmarks e s.trees ++ landmarks e more := by
  have split := splitTrailing_append (s.takeError.1 ++ more)
  rw [← landmarks_takeError s, List.append_assoc, ← landmarks_append, ← split, pushError,
    trees_pushAll]
  generalize splitTrailing (s.takeError.1 ++ more) = halves
  obtain ⟨body, extras⟩ := halves
  dsimp only
  cases body with
  | nil => simp
  | cons t body =>
      have early (p : Position) : (ofChildren (.error false) p (t :: body)).isEarly e = false :=
        isEarly_of_symbol (by simp [Label.symbol]) p _
      rw [landmarks_append, landmarks_append (t :: body)]
      congr 1
      exact landmarks_ofChildren (early _) extras

theorem mem_trees_pushError {more : List Tree} {t : Tree} (h : t ∈ (s.pushError more).trees) :
    t ∈ s.trees ∨ t.symbol ≠ .token .opening := by
  rw [Stack.pushError, trees_pushAll] at h
  simp only [List.mem_append] at h
  rcases h with below | error | extra
  · refine .inl ?_
    rcases takeError_eq s with none | ⟨whole, span, children, state, rest, rfl, taken⟩
    · rwa [none] at below
    · rw [taken] at below
      exact forall_trees_cons.1 (fun _ => id) |>.1 t below
  · right
    split at error
    · cases error
    · rw [List.mem_singleton.1 error]
      simp [ofChildren, Tree.symbol, Label.symbol]
  · exact .inr (symbol_ne_opening_of_isExtra (splitTrailing_extra _ t extra))

theorem Keeps.pushError {more : List Tree} (hs : s.Keeps e marks) :
    (s.pushError more).Keeps e (marks ++ Tree.landmarks e more) := by
  refine ⟨by rw [landmarks_pushError, hs.landmarks], fun t ht opening => ?_⟩
  rcases mem_trees_pushError ht with old | other
  · exact hs.later t old opening
  · exact absurd opening other

end Steps

end Stack

/-! ## The list that has been closed last -/

namespace State

/-- The states in which a list has been closed and is complete. -/
def isClosed (s : State) : Bool :=
  s.production?.any (·.result = .list)

theorem reduction?_of_isClosed {s : State} (h : s.isClosed = true) {t : TokenKind}
    (comment : t ≠ .comment) (lexable : t ≠ .unlexable) : s.reduction? t = s.production? := by
  cases t with
  | comment => exact absurd rfl comment
  | unlexable => exact absurd rfl lexable
  | _ => cases s <;> first | rfl | cases h

theorem completion?_of_isClosed {s : State} (h : s.isClosed = true) :
    s.completion? = s.production? := by
  cases s with
  | closedEmpty => rfl
  | closedHead e => cases e <;> rfl
  | closedFull e => cases e <;> rfl
  | _ => cases h

theorem rank_of_isClosed {s : State} (h : s.isClosed = true) : s.rank = 3 := by
  cases s <;> first | rfl | cases h

theorem isClosed_of_goto {b s : State} {n : Nonterminal} (h : b.goto n = some s) :
    s.isClosed = false := by
  cases b <;> cases n <;> cases h <;> rfl

theorem isClosed_of_reduction?_none {s : State} {t : TokenKind} (comment : t ≠ .comment)
    (lexable : t ≠ .unlexable) (h : s.reduction? t = none) : s.isClosed = false := by
  by_contra closed
  have closed : s.isClosed = true := by simpa using closed
  rw [reduction?_of_isClosed closed comment lexable] at h
  rw [isClosed, h] at closed
  cases closed

end State

namespace Stack

open MettaSyntax.Tree

/-- The stack after completing the list on top of it, if one has been closed there. -/
def closeList (s : Stack) : Stack :=
  if s.state.isClosed then (s.state.production?.bind s.reduce?).getD s else s

section Closed

variable {e : Nat} {row : List Tree} {s s' : Stack} {p : Production}

theorem exists_closing (h : s.state.isClosed = true) :
    ∃ p, s.state.production? = some p ∧ p.result = .list := by
  unfold State.isClosed at h
  cases hp : s.state.production? with
  | none =>
      rw [hp] at h
      cases h
  | some p =>
      rw [hp] at h
      exact ⟨p, rfl, by simpa using h⟩

theorem closeList_of_open (h : s.state.isClosed = false) : s.closeList = s := by
  rw [closeList, if_neg (by simp [h])]

theorem closeList_of_reduce? (h : s.state.isClosed = true) (hp : s.state.production? = some p)
    (hr : s.reduce? p = some s') : s.closeList = s' := by
  rw [closeList, if_pos h, hp, Option.bind_some, hr]
  rfl

/-- An extra that comes after a closed list stays on top of it. -/
theorem closeList_extra (hs : s.Viable) {t : Tree} (extra : t.isExtra = true) :
    (closeList (⟨t, s.state⟩ :: s)).trees = s.closeList.trees ++ [t] := by
  by_cases closed : s.state.isClosed = true
  · obtain ⟨p, hp, list⟩ := exists_closing closed
    obtain ⟨xs, below, row, next, taken, spelt, goes⟩ := hs.completes hp
    obtain ⟨inner, opening, -⟩ := inside_of_spells list spelt
    have ne : xs ≠ [] := by simp [opening]
    have body : (splitTrailing row).1 ≠ [] := by
      intro none
      apply ne
      rw [← taken.counted, ← counted_splitTrailing, none, counted_nil]
    rw [closeList_of_reduce? closed hp (taken.reduce? spelt goes),
      closeList_of_reduce? (s := ⟨t, s.state⟩ :: s) closed hp
        ((taken.extra ne extra _).reduce? spelt goes), splitTrailing_concat row extra]
    rw [trees_pushAll, trees_pushAll, trees_cons, trees_cons, ofChildren_of_ne_nil body _ s.position,
      List.append_assoc _ _ [t]]
  · have open' : s.state.isClosed = false := by simpa using closed
    rw [closeList_of_open open', closeList_of_open (s := ⟨t, s.state⟩ :: s) open', trees_cons]

theorem Reduced.landmarks (h : Reduced s p s') (other : p.result ≠ .list) :
    landmarks e s'.trees = landmarks e s.trees := by
  obtain ⟨below, body, extras, next, rfl, split, -⟩ := h
  have early : (ofChildren (.production p) s.position body).isEarly e = false :=
    isEarly_of_symbol (by simpa [Label.symbol] using other) _ _
  rw [landmarks_pushNode early, split]

/-- Where no list has been closed, no list is completed. -/
theorem landmarks_reduceWhile_open {choose : State → Option Production}
    (hc : ∀ s p, choose s = some p → s.production? = some p) (held : s.Holds row)
    (h : s.state.isClosed = false) (n : Nat) :
    landmarks e (reduceWhile choose n s).trees = landmarks e s.trees := by
  have step : ∀ (u : Stack) p u', (u.Holds row ∧ u.state.isClosed = false ∧
      Tree.landmarks e u.trees = Tree.landmarks e s.trees) → choose u.state = some p →
      u.reduce? p = some u' → u'.Holds row ∧ u'.state.isClosed = false ∧
        Tree.landmarks e u'.trees = Tree.landmarks e s.trees := by
    rintro u p u' ⟨hu, openU, same⟩ hp hr
    have hp' := hc _ _ hp
    have reduced := hu.viable.reduced hp' hr
    obtain ⟨b, goes⟩ := reduced.goto
    have other : p.result ≠ .list := by
      intro list
      rw [State.isClosed, hp'] at openU
      simp [list] at openU
    exact ⟨hu.reduced hp' reduced, State.isClosed_of_goto goes, by rw [reduced.landmarks other, same]⟩
  exact (reduceWhile_induction (fun u => u.Holds row ∧ u.state.isClosed = false ∧
    Tree.landmarks e u.trees = Tree.landmarks e s.trees) step n s ⟨held, h, rfl⟩).2.2

/-- Of all reductions, only the one of a list that has been closed changes the landmarks. -/
theorem landmarks_reduceWhile {choose : State → Option Production}
    (hc : ∀ s p, choose s = some p → s.production? = some p)
    (closes : ∀ s, s.isClosed = true → choose s = s.production?) (held : s.Holds row) :
    landmarks e (reduceWhile choose s.state.rank s).trees = landmarks e s.closeList.trees := by
  by_cases closed : s.state.isClosed = true
  · obtain ⟨p, hp, list⟩ := exists_closing closed
    obtain ⟨s', hr, reduced⟩ := held.viable.reduce? hp
    obtain ⟨b, goes⟩ := reduced.goto
    have rank := State.rank_of_isClosed closed
    have choice : choose s.state = some p := by rw [closes _ closed, hp]
    rw [rank, reduceWhile, choice, Option.bind_some, hr, closeList_of_reduce? closed hp hr]
    exact landmarks_reduceWhile_open hc (held.reduced hp reduced) (State.isClosed_of_goto goes) 2
  · have open' : s.state.isClosed = false := by simpa using closed
    rw [landmarks_reduceWhile_open hc held open', closeList_of_open open']

theorem landmarks_settle (held : s.Holds row) {t : TokenKind} (comment : t ≠ .comment)
    (lexable : t ≠ .unlexable) :
    landmarks e (s.settle t).trees = landmarks e s.closeList.trees :=
  landmarks_reduceWhile (fun _ _ => State.production?_of_reduction?)
    (fun _ closed => State.reduction?_of_isClosed closed comment lexable) held

theorem landmarks_complete (held : s.Holds row) :
    landmarks e s.complete.trees = landmarks e s.closeList.trees := by
  refine landmarks_reduceWhile (fun s p h => ?_) (fun _ => State.completion?_of_isClosed) held
  obtain ⟨t, -, ht⟩ := State.reduction?_of_completion? h
  exact State.production?_of_reduction? ht

end Closed

end Stack

end MettaSyntax
