import MettaSyntax.Proofs.Closing
import MettaSyntax.Proofs.Preorder

/-! # Nesting

`nesting? d row` counts how deep a row of symbols leads from depth `d`, and fails where it closes a
list that is not open.  A tree without errors closes every list that it opens, and the depth of a
viable stack can be read off its state: outside of all lists it is zero, and inside of one it is
not. -/

set_option autoImplicit false

namespace MettaSyntax

def Symbol.level? (d : Nat) : Symbol → Option Nat
  | .token .opening => some (d + 1)
  | .token .closing => if d = 0 then none else some (d - 1)
  | _ => some d

def nesting? (d : Nat) : List Symbol → Option Nat
  | [] => some d
  | x :: row => (x.level? d).bind (nesting? · row)

@[simp] theorem nesting?_nil (d : Nat) : nesting? d [] = some d := rfl

@[simp] theorem nesting?_cons (d : Nat) (x : Symbol) (row : List Symbol) :
    nesting? d (x :: row) = (x.level? d).bind (nesting? · row) := rfl

theorem nesting?_append (d : Nat) (xs ys : List Symbol) :
    nesting? d (xs ++ ys) = (nesting? d xs).bind (nesting? · ys) := by
  induction xs generalizing d with
  | nil => rfl
  | cons x xs ih =>
      rw [List.cons_append, nesting?_cons, nesting?_cons, Option.bind_assoc]
      congr 1
      funext e
      exact ih e

/-- A row of tokens leads somewhere if no prefix closes more lists than are open. -/
theorem nesting?_eq_some_iff {d e : Nat} {kinds : List TokenKind} :
    nesting? d (kinds.map TokenKind.toSymbol) = some e ↔
      (∀ n, (kinds.take n).count .closing ≤ d + (kinds.take n).count .opening) ∧
        e + kinds.count .closing = d + kinds.count .opening := by
  induction kinds generalizing d with
  | nil => simp [eq_comm]
  | cons k kinds ih =>
      have prefixes (P : List TokenKind → Prop) :
          (∀ n, P ((k :: kinds).take n)) ↔ P [] ∧ ∀ n, P (k :: kinds.take n) := by
        constructor
        · intro h
          exact ⟨h 0, fun n => h (n + 1)⟩
        · rintro ⟨first, rest⟩ n
          cases n with
          | zero => exact first
          | succ n => exact rest n
      rw [List.map_cons, nesting?_cons,
        prefixes fun row => row.count .closing ≤ d + row.count .opening]
      by_cases opening : k = .opening
      · subst opening
        have deeper : (TokenKind.toSymbol .opening).level? d = some (d + 1) := rfl
        rw [deeper, Option.bind_some, ih]
        simp [Nat.add_assoc, Nat.add_comm 1]
      · by_cases closing : k = .closing
        · subst closing
          cases d with
          | zero =>
              have stuck : (TokenKind.toSymbol .closing).level? 0 = none := rfl
              rw [stuck, Option.bind_none]
              constructor
              · intro h
                cases h
              · rintro ⟨⟨-, h⟩, -⟩
                have := h 0
                simp at this
          | succ d =>
              have higher : (TokenKind.toSymbol .closing).level? (d + 1) = some d := rfl
              rw [higher, Option.bind_some, ih]
              constructor
              · rintro ⟨h, total⟩
                refine ⟨⟨by simp, fun n => ?_⟩, ?_⟩
                · have := h n
                  simp
                  omega
                · simp
                  omega
              · rintro ⟨⟨-, h⟩, total⟩
                refine ⟨fun n => ?_, ?_⟩
                · have := h n
                  simp at this
                  omega
                · simp at total
                  omega
        · have same : k.toSymbol.level? d = some d := by
            cases k <;> first | rfl | exact absurd rfl opening | exact absurd rfl closing
          rw [same, Option.bind_some, ih]
          simp [List.count_cons_of_ne opening, List.count_cons_of_ne closing]

namespace Tree

/-- No part of the tree is an error or missing. -/
inductive Clean : Tree → Prop
  | leaf {token : Token} (h : token.kind ≠ .unlexable) : Clean (ofToken token)
  | node {p : Production} {span : Span} {row : List Tree} (h : ∀ t ∈ row, Clean t) :
      Clean (.node (.production p) span row)

theorem Clean.children {t : Tree} (h : Clean t) : ∀ c ∈ t.children, Clean c := by
  cases h with
  | leaf h => simp [ofToken, Tree.children]
  | node h => exact h

theorem Clean.leaves {t : Tree} (h : Clean t) : ∀ u ∈ t.leaves, Clean u := by
  induction h with
  | @leaf token h =>
      intro u hu
      rw [leaves_ofToken] at hu
      exact List.mem_singleton.1 hu ▸ .leaf h
  | @node p span row h ih =>
      intro u hu
      rw [Tree.leaves] at hu
      obtain ⟨t, mem, ht⟩ := mem_leavesRow.1 hu
      exact ih t mem u ht

theorem level?_of_isExtra {t : Tree} (h : t.isExtra = true) (d : Nat) :
    t.symbol.level? d = some d := by
  cases t with
  | leaf token missing =>
      simp only [isExtra, Bool.or_eq_true, decide_eq_true_eq] at h
      rcases h with h | h
      · rw [symbol, h]
        rfl
      · rw [symbol, h]
        rfl
  | node label span children =>
      cases label with
      | production p => cases h
      | error whole => rfl
      | skipped => cases h

theorem nesting?_counted (d : Nat) (row : List Tree) :
    nesting? d (row.map symbol) = nesting? d (counted row) := by
  induction row generalizing d with
  | nil => rfl
  | cons t row ih =>
      rw [List.map_cons, nesting?_cons]
      by_cases extra : t.isExtra = true
      · rw [level?_of_isExtra extra, Option.bind_some, ih, counted_cons_extra extra]
      · rw [counted_cons (by simpa using extra), nesting?_cons]
        congr 1
        funext e
        exact ih e

theorem nesting?_leavesRow {row : List Tree}
    (h : ∀ t ∈ row, ∀ d, nesting? d (t.leaves.map symbol) = t.symbol.level? d) (d : Nat) :
    nesting? d ((leavesRow row).map symbol) = nesting? d (counted row) := by
  rw [← nesting?_counted]
  induction row generalizing d with
  | nil => rfl
  | cons t row ih =>
      rw [leavesRow_cons, List.map_append, nesting?_append, h t List.mem_cons_self, List.map_cons,
        nesting?_cons]
      congr 1
      funext e
      exact ih (fun u hu => h u (List.mem_cons_of_mem _ hu)) e

theorem level?_of_isElement {x : Symbol} (h : Production.isElement x = true) (d : Nat) :
    x.level? d = some d := by
  unfold Production.isElement at h
  split at h
  · rfl
  · rfl
  · cases h

theorem nesting?_of_spells {p : Production} {xs : List Symbol} (h : p.spells xs = true) (d : Nat) :
    nesting? d xs = some d := by
  have neutral (n : Nonterminal) (d : Nat) : (Symbol.nonterminal n).level? d = some d := rfl
  have opens (d : Nat) : (Symbol.token .opening).level? d = some (d + 1) := rfl
  have closes (d : Nat) : (Symbol.token .closing).level? (d + 1) = some d := rfl
  have atom (k : AtomKind) (d : Nat) : (Symbol.token (.atom k)).level? d = some d := rfl
  unfold Production.spells at h
  split at h
  · rfl
  · simp [neutral]
  · simp [level?_of_isElement h]
  · simp [neutral, level?_of_isElement h]
  · simp [opens, closes]
  · simp [opens, closes, level?_of_isElement h]
  · simp [opens, closes, neutral, level?_of_isElement h]
  · simp [level?_of_isElement h]
  · simp [neutral, level?_of_isElement h]
  · simp [atom]
  · cases h

theorem Clean.level? {t : Tree} (h : Clean t) (formed : t.Formed) :
    ∀ d, nesting? d (t.leaves.map symbol) = t.symbol.level? d := by
  induction h with
  | @leaf token h =>
      intro d
      rw [leaves_ofToken]
      simp
  | @node p span row h ih =>
      intro d
      cases formed with
      | node q admits place parts formed =>
          rw [Tree.leaves, nesting?_leavesRow fun t ht => ih t ht (formed t ht)]
          exact nesting?_of_spells admits.1 d

end Tree

/-! ## The depth of a stack -/

namespace State

/-- The states in which no list is open. -/
def isOutside : State → Bool
  | .start => true
  | .sequence => true
  | .finished => true
  | .firstOf _ => true
  | .nextOf _ => true
  | _ => false

/-- What a state tells about the depth in it. -/
def Allows (s : State) (d : Nat) : Prop :=
  (s.isOutside = true → d = 0) ∧ (s.isInside = true → 0 < d)

theorem Allows.step? {b s : State} {x : Symbol} {d : Nat} (h : b.Allows d)
    (edge : b.step? x = some s) : ∃ e, x.level? d = some e ∧ s.Allows e := by
  obtain ⟨outside, inside⟩ := h
  have source := mem_sources_of_step? edge
  cases s with
  | start => cases source
  | sequence =>
      simp only [sources, List.mem_singleton, Prod.mk.injEq] at source
      obtain ⟨rfl, rfl⟩ := source
      exact ⟨d, rfl, fun _ => outside rfl, by simp [isInside]⟩
  | finished =>
      simp only [sources, List.mem_singleton, Prod.mk.injEq] at source
      obtain ⟨rfl, rfl⟩ := source
      exact ⟨d, rfl, fun _ => outside rfl, by simp [isInside]⟩
  | firstOf e =>
      simp only [sources, List.mem_singleton, Prod.mk.injEq] at source
      obtain ⟨rfl, rfl⟩ := source
      exact ⟨d, by cases e <;> rfl, fun _ => outside rfl, by simp [isInside]⟩
  | nextOf e =>
      simp only [sources, List.mem_singleton, Prod.mk.injEq] at source
      obtain ⟨rfl, rfl⟩ := source
      exact ⟨d, by cases e <;> rfl, fun _ => outside rfl, by simp [isInside]⟩
  | word k =>
      simp only [sources, List.mem_map, Prod.mk.injEq] at source
      obtain ⟨_, _, _, rfl⟩ := source
      exact ⟨d, rfl, by simp [isOutside], by simp [isInside]⟩
  | opened =>
      simp only [sources, List.mem_map, Prod.mk.injEq] at source
      obtain ⟨_, _, _, rfl⟩ := source
      exact ⟨d + 1, rfl, by simp [isOutside], by simp⟩
  | headed e =>
      simp only [sources, List.mem_singleton, Prod.mk.injEq] at source
      obtain ⟨rfl, rfl⟩ := source
      exact ⟨d, by cases e <;> rfl, by simp [isOutside], fun _ => inside rfl⟩
  | applied e =>
      simp only [sources, List.mem_singleton, Prod.mk.injEq] at source
      obtain ⟨rfl, rfl⟩ := source
      exact ⟨d, rfl, by simp [isOutside], fun _ => inside rfl⟩
  | firstArgument e =>
      simp only [sources, List.mem_cons, List.not_mem_nil, or_false, Prod.mk.injEq] at source
      obtain ⟨rfl, rfl⟩ | ⟨rfl, rfl⟩ := source
      · exact ⟨d, by cases e <;> rfl, by simp [isOutside], fun _ => inside rfl⟩
      · exact ⟨d, by cases e <;> rfl, by simp [isOutside], fun _ => inside rfl⟩
  | nextArgument e =>
      simp only [sources, List.mem_cons, List.not_mem_nil, or_false, Prod.mk.injEq] at source
      obtain ⟨rfl, rfl⟩ | ⟨rfl, rfl⟩ := source
      · exact ⟨d, by cases e <;> rfl, by simp [isOutside], fun _ => inside rfl⟩
      · exact ⟨d, by cases e <;> rfl, by simp [isOutside], fun _ => inside rfl⟩
  | closedEmpty =>
      simp only [sources, List.mem_singleton, Prod.mk.injEq] at source
      obtain ⟨rfl, rfl⟩ := source
      have deep : d ≠ 0 := Nat.ne_of_gt (inside rfl)
      exact ⟨d - 1, if_neg deep, by simp [isOutside], by simp [isInside]⟩
  | closedHead e =>
      simp only [sources, List.mem_singleton, Prod.mk.injEq] at source
      obtain ⟨rfl, rfl⟩ := source
      have deep : d ≠ 0 := Nat.ne_of_gt (inside rfl)
      exact ⟨d - 1, if_neg deep, by simp [isOutside], by simp [isInside]⟩
  | closedFull e =>
      simp only [sources, List.mem_singleton, Prod.mk.injEq] at source
      obtain ⟨rfl, rfl⟩ := source
      have deep : d ≠ 0 := Nat.ne_of_gt (inside rfl)
      exact ⟨d - 1, if_neg deep, by simp [isOutside], by simp [isInside]⟩

end State

/-- The trees on a viable stack lead to a depth that its state allows. -/
theorem Stack.Viable.depth {s : Stack} (hs : s.Viable) :
    ∃ d, nesting? 0 (Tree.counted s.trees) = some d ∧ s.state.Allows d := by
  induction hs with
  | nil => exact ⟨0, rfl, fun _ => rfl, by simp [state, State.isInside]⟩
  | @extra s t ht hs ih =>
      obtain ⟨d, depth, allows⟩ := ih
      refine ⟨d, ?_, allows⟩
      rw [trees_cons, Tree.counted_append, Tree.counted_cons_extra ht, Tree.counted_nil,
        List.append_nil, depth]
  | @step s f hf edge hs ih =>
      obtain ⟨d, depth, allows⟩ := ih
      obtain ⟨e, level, allows'⟩ := allows.step? edge
      refine ⟨e, ?_, allows'⟩
      rw [trees_cons, Tree.counted_append, Tree.counted_cons hf, Tree.counted_nil,
        nesting?_append, depth, Option.bind_some, nesting?_cons, level]
      rfl

end MettaSyntax
