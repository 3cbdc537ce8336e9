import MettaSyntax.Proofs.Stability

/-! # The text of a node

Every node of the tree of a text begins and ends between two characters of the text, and does not end
before it begins.  So the text can be cut at its span, whatever the text is. -/

set_option autoImplicit false

namespace MettaSyntax

/-- A place between two characters of a text, or at one of its ends. -/
def Position.Parts (text : List Char) (p : Position) : Prop :=
  ∃ before after, text = before ++ after ∧ p = Position.origin.after before

/-- The characters of a text that a span of it stands for. -/
def Span.Spells (text : List Char) (s : Span) (word : List Char) : Prop :=
  ∃ before after, text = before ++ word ++ after ∧
    s = ⟨Position.origin.after before, Position.origin.after (before ++ word)⟩

/-- Of two first parts of a text the one with fewer bytes is the shorter one. -/
theorem prefix_of_byteLength_le {text xs ys : List Char} (hx : xs <+: text) (hy : ys <+: text)
    (le : byteLength xs ≤ byteLength ys) : xs <+: ys := by
  apply List.prefix_of_prefix_length_le hx hy
  by_contra longer
  obtain ⟨word, rfl⟩ : ys <+: xs := List.prefix_of_prefix_length_le hy hx (by omega)
  rw [byteLength_append] at le
  have none : word ≠ [] := by
    rintro rfl
    simp at longer
  have := byteLength_pos none
  omega

namespace Span

variable {text : List Char} {s : Span}

theorem Spells.slice? {word : List Char} (h : s.Spells text word) :
    slice? text s.start.byte s.stop.byte = some word := by
  obtain ⟨before, after, rfl, span⟩ := h
  rw [span, Lexer.byte_after_origin, Lexer.byte_after_origin, byteLength_append]
  exact slice?_append before word after

theorem Spells.start {word : List Char} (h : s.Spells text word) : s.start.Parts text := by
  obtain ⟨before, after, split, span⟩ := h
  exact ⟨before, word ++ after, by rw [split, List.append_assoc], by rw [span]⟩

theorem Spells.stop {word : List Char} (h : s.Spells text word) : s.stop.Parts text := by
  obtain ⟨before, after, split, span⟩ := h
  exact ⟨before ++ word, after, split, by rw [span]⟩

theorem exists_spells (start : s.start.Parts text) (stop : s.stop.Parts text)
    (order : s.start.byte ≤ s.stop.byte) : ∃ word, s.Spells text word := by
  obtain ⟨start, stop⟩ := s
  obtain ⟨before, rest, split, rfl⟩ := start
  obtain ⟨through, after, split', rfl⟩ := stop
  simp only [Lexer.byte_after_origin] at order
  obtain ⟨word, rfl⟩ : before <+: through :=
    prefix_of_byteLength_le ⟨rest, split.symm⟩ ⟨after, split'.symm⟩ order
  exact ⟨word, before, after, split', rfl⟩

/-- A span that begins where another one does, and does not end after it, has the first characters
of the other one. -/
theorem Spells.begins {word first : List Char} {s' : Span} (h : s.Spells text word)
    (h' : s'.Spells text first) (start : s'.start.byte = s.start.byte)
    (stop : s'.stop.byte ≤ s.stop.byte) : first <+: word := by
  obtain ⟨before, after, split, rfl⟩ := h
  obtain ⟨before', after', split', rfl⟩ := h'
  simp only [Lexer.byte_after_origin] at start stop
  have place : before <+: text := ⟨word ++ after, by rw [split, List.append_assoc]⟩
  have place' : before' <+: text := ⟨first ++ after', by rw [split', List.append_assoc]⟩
  obtain rfl : before' = before :=
    (prefix_of_byteLength_le place' place (Nat.le_of_eq start)).sublist.antisymm
      (prefix_of_byteLength_le place place' (Nat.le_of_eq start.symm)).sublist
  exact (List.prefix_append_right_inj before').1
    (prefix_of_byteLength_le ⟨after', split'.symm⟩ ⟨after, split.symm⟩ stop)

end Span

theorem Lexer.exists_spells {text : List Char} {t : Token} (h : t ∈ tokens text) :
    ∃ word, t.span.Spells text word := by
  obtain ⟨before, word, after, split, -, span, -⟩ := tokens_placed text t h
  exact ⟨word, before, after, split, span⟩

theorem Lexer.stop_le {text : List Char} {t : Token} (h : t ∈ tokens text) :
    t.span.stop.byte ≤ byteLength text := by
  obtain ⟨word, before, after, rfl, span⟩ := exists_spells h
  rw [span, byte_after_origin, byteLength_append (before ++ word)]
  exact Nat.le_add_right _ _

namespace Tree

variable {text : List Char}

/-- A token of a text, a missing parenthesis at the end of the last one, and the end of the text all
stand between characters. -/
theorem leaf_parts {u : Tree} (hu : u ∈ (parse text).leaves) :
    u.span.start.Parts text ∧ u.span.stop.Parts text := by
  have token {t : Tree} (ht : t ∈ (Lexer.tokens text).map ofToken) :
      t.span.start.Parts text ∧ t.span.stop.Parts text := by
    obtain ⟨token, mem, rfl⟩ := List.mem_map.1 ht
    obtain ⟨word, spells⟩ := Lexer.exists_spells mem
    exact ⟨spells.start, spells.stop⟩
  obtain ⟨n, whole⟩ := parse_repaired text
  rw [whole.leaves] at hu
  simp only [List.mem_append, List.mem_replicate, List.mem_singleton] at hu
  rcases hu with (held | ⟨-, rfl⟩) | rfl
  · exact token held
  · have place : (endOf ((Lexer.tokens text).map ofToken)).Parts text := by
      cases last : ((Lexer.tokens text).map ofToken).getLast? with
      | none =>
          rw [endOf, last]
          exact ⟨[], text, rfl, rfl⟩
      | some t =>
          rw [endOf, last]
          exact (token (List.mem_of_getLast? last)).2
    exact ⟨place, place⟩
  · have place : (Lexer.textEnd text).Parts text := ⟨text, [], (List.append_nil _).symm, rfl⟩
    exact ⟨place, place⟩

theorem mem_nodes_of_mem_preorder {t : Tree} {c : Cursor} (h : c ∈ t.preorder) : c.tree ∈ t.nodes := by
  have mem : c.tree ∈ t.preorder.map Cursor.tree := List.mem_map_of_mem h
  rw [map_tree_preorder] at mem
  rw [nodes_eq]
  rcases List.mem_cons.1 mem with root | below
  · rw [root]
    exact List.mem_cons_self
  · exact List.mem_cons_of_mem _ (List.mem_filter.1 below).1

/-- Every node of the tree of a text spans its leaves, which are in order and stand together among those
of the tree. -/
theorem extent_of_mem_nodes {u : Tree} (hu : u ∈ (parse text).nodes) :
    u.Extent ∧ u.leaves <:+: (parse text).leaves ∧ ∃ lo hi, InOrder lo u.leaves hi := by
  obtain ⟨n, whole⟩ := parse_repaired text
  have ordered : InOrder 0 (parse text).leaves (byteLength text) := by
    rw [whole.leaves]
    exact leaves_inOrder text n
  obtain ⟨extent, within⟩ : u.Extent ∧ u.leaves <:+: (parse text).leaves := by
    rw [nodes_eq] at hu
    rcases List.mem_cons.1 hu with rfl | below
    · exact ⟨whole.extent, List.infix_refl _⟩
    · refine ⟨(parse_nodes text).1 u below, ?_⟩
      have within := leaves_infix_of_mem_nodesRow below
      rwa [leavesRow_children] at within
      intro none
      rw [none] at below
      cases below
  exact ⟨extent, within, ordered.infix within⟩

/-- The text can be cut at the span of every node of its tree. -/
theorem exists_spells {u : Tree} (hu : u ∈ (parse text).nodes) :
    ∃ word, u.span.Spells text word := by
  obtain ⟨extent, within, lo, hi, inside⟩ := extent_of_mem_nodes hu
  obtain ⟨order, -⟩ := extent.inOrder_leaves inside
  obtain ⟨first, last, head, tail, span⟩ := extent
  apply Span.exists_spells _ _ order
  · rw [span]
    exact (leaf_parts (within.subset (List.mem_of_head? head))).1
  · rw [span]
    exact (leaf_parts (within.subset (List.mem_of_getLast? tail))).2

end Tree

end MettaSyntax
