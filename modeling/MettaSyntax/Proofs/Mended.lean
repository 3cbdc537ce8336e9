import MettaSyntax.Proofs.Forest
import MettaSyntax.Proofs.Matches

/-! # Trees that read on

Some repairs leave the rest of a tree as it would be without errors: a list whose closing parenthesis
was supplied is still a list, and closing parentheses that were skipped are an error of their own
between other nodes.  `Tree.kept` is what such a tree reads of its tokens, and it nests like the text
without the repairs. -/

set_option autoImplicit false

namespace MettaSyntax

namespace Tree

/-- There is nothing below a row but closing parentheses that were skipped. -/
def Stray (row : List Tree) : Prop :=
  ∀ u ∈ nodesRow row, u.symbol = .skipped ∨ u.symbol = .token .closing

/-- No part of the tree is an error, stray closing parentheses apart. -/
inductive Mended : Tree → Prop
  | leaf {token : Token} {missing : Bool} (lexable : token.kind ≠ .unlexable) :
      Mended (.leaf token missing)
  | node {p : Production} {span : Span} {row : List Tree} (h : ∀ t ∈ row, Mended t) :
      Mended (.node (.production p) span row)
  | stray {label : Label} {span : Span} {row : List Tree} (broken : label.isBroken = true)
      (h : Stray row) : Mended (.node label span row)

theorem Clean.mended {t : Tree} (h : t.Clean) : t.Mended := by
  induction h with
  | leaf lexable => exact .leaf lexable
  | node h ih => exact .node ih

/-- A leaf is never a larger tree, and a node never a token. -/
theorem exists_leaf_of_symbol {t : Tree} {kind : TokenKind} (symbol : t.symbol = .token kind) :
    ∃ span missing, t = leaf ⟨kind, span⟩ missing := by
  cases t with
  | leaf token missing =>
      obtain ⟨k, span⟩ := token
      obtain rfl : k = kind := eq_of_toSymbol symbol
      exact ⟨span, missing, rfl⟩
  | node label span row => cases label <;> cases symbol

/-- Of the tokens only closing parentheses can be missing. -/
theorem Formed.eq_ofToken {t : Tree} (h : t.Formed) {kind : TokenKind}
    (symbol : t.symbol = .token kind) (present : kind ≠ .closing) :
    ∃ span, t = Tree.ofToken ⟨kind, span⟩ := by
  obtain ⟨span, missing, rfl⟩ := exists_leaf_of_symbol symbol
  cases h with
  | leaf inside miss =>
      cases missing with
      | false => exact ⟨span, rfl⟩
      | true => exact absurd (miss rfl).1 present

/-- Whatever is below a row of stray parentheses reads on. -/
theorem Stray.mended {row : List Tree} (h : Stray row) : ∀ u ∈ nodesRow row, u.Mended := by
  intro u hu
  rcases h u hu with skipped | closing
  · cases u with
    | leaf token missing => exact absurd skipped (symbol_leaf_ne_skipped token missing)
    | node label span children =>
        have below : Stray children := by
          intro v hv
          apply h v (nodes_subset_nodesRow hu _)
          rw [nodes]
          exact List.mem_cons_of_mem _ hv
        cases label <;> cases skipped
        exact .stray rfl below
  · obtain ⟨span, missing, rfl⟩ := exists_leaf_of_symbol closing
    exact .leaf (by simp)

theorem Mended.of_mem_nodes {t : Tree} (h : t.Mended) : ∀ u ∈ t.nodes, u.Mended := by
  induction h with
  | @leaf token missing lexable =>
      intro u hu
      rw [nodes] at hu
      exact List.mem_singleton.1 hu ▸ .leaf lexable
  | node h ih =>
      intro u hu
      rw [nodes] at hu
      rcases List.mem_cons.1 hu with rfl | below
      · exact .node h
      · obtain ⟨c, hc, inC⟩ := mem_nodesRow.1 below
        exact ih c hc u inC
  | stray broken h =>
      intro u hu
      rw [nodes] at hu
      rcases List.mem_cons.1 hu with rfl | below
      · exact .stray broken h
      · exact h.mended u below

theorem Mended.children {t : Tree} (h : t.Mended) : ∀ c ∈ t.children, c.Mended := by
  intro c hc
  apply h.of_mem_nodes
  rw [nodes_eq]
  exact List.mem_cons_of_mem _ (mem_nodesRow_of_mem hc)

/-! ## What is kept -/

mutual

/-- The tokens of a tree without those given up in an error. -/
def kept : Tree → List Token
  | .leaf token _ => [token]
  | .node label _ children => if label.isBroken then [] else keptRow children

def keptRow : List Tree → List Token
  | [] => []
  | t :: row => kept t ++ keptRow row

end

@[simp] theorem keptRow_nil : keptRow [] = [] := by
  rw [keptRow]

@[simp] theorem keptRow_cons (t : Tree) (row : List Tree) : keptRow (t :: row) = t.kept ++ keptRow row := by
  rw [keptRow]

@[simp] theorem keptRow_append (xs ys : List Tree) : keptRow (xs ++ ys) = keptRow xs ++ keptRow ys := by
  induction xs with
  | nil => rfl
  | cons t xs ih => rw [List.cons_append, keptRow_cons, keptRow_cons, ih, List.append_assoc]

@[simp] theorem kept_ofToken (token : Token) : (ofToken token).kept = [token] := by
  rw [ofToken, kept]

@[simp] theorem kept_production (p : Production) (span : Span) (row : List Tree) :
    (node (.production p) span row).kept = keptRow row := by
  rw [kept, if_neg (by simp [Label.isBroken])]

theorem kept_broken {label : Label} (h : label.isBroken = true) (span : Span) (row : List Tree) :
    (node label span row).kept = [] := by
  rw [kept, if_pos h]

theorem keptRow_ofToken (tokens : List Token) : keptRow (tokens.map ofToken) = tokens := by
  induction tokens with
  | nil => rfl
  | cons t tokens ih => rw [List.map_cons, keptRow_cons, kept_ofToken, ih, List.singleton_append]

theorem ofToken_injective : Function.Injective ofToken := by
  rintro ⟨kind, span⟩ ⟨kind', span'⟩ same
  cases same
  rfl

/-- A tree without errors keeps all of its tokens. -/
theorem Clean.leaves_eq {t : Tree} (h : t.Clean) : t.leaves = t.kept.map Tree.ofToken := by
  induction h with
  | leaf lexable => rw [leaves_ofToken, kept_ofToken, List.map_singleton]
  | @node p span row h ih =>
      rw [Tree.leaves, kept_production]
      clear h
      induction row with
      | nil => rfl
      | cons t row ihRow =>
          rw [leavesRow_cons, keptRow_cons, List.map_append, ih t List.mem_cons_self,
            ihRow fun u hu => ih u (List.mem_cons_of_mem _ hu)]

end Tree

end MettaSyntax
