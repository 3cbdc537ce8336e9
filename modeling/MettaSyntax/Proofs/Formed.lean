import Mathlib.Data.List.Basic
import MettaSyntax.Tree.Basic

/-! # Well-formed trees

A tree is well formed when every node in it has children that its label allows: those of a
production spell its right-hand side once the extras are left out, and no extra stands at either
end.  `Tree.leaves` is what is left of a tree when all its nodes are taken away; a well-formed tree
runs from the start of its first leaf to the end of its last. -/

set_option autoImplicit false

namespace MettaSyntax

namespace Tree

mutual

/-- The leaves of a tree, in the order of the text. -/
def leaves : Tree → List Tree
  | .leaf token missing => [.leaf token missing]
  | .node _ _ children => leavesRow children

def leavesRow : List Tree → List Tree
  | [] => []
  | t :: row => leaves t ++ leavesRow row

end

@[simp] theorem leavesRow_nil : leavesRow [] = [] := rfl

@[simp] theorem leavesRow_cons (t : Tree) (row : List Tree) :
    leavesRow (t :: row) = t.leaves ++ leavesRow row := by
  simp [leavesRow]

@[simp] theorem leavesRow_append (xs ys : List Tree) :
    leavesRow (xs ++ ys) = leavesRow xs ++ leavesRow ys := by
  induction xs with
  | nil => simp
  | cons t xs ih => simp [ih]

theorem mem_leavesRow {u : Tree} {row : List Tree} :
    u ∈ leavesRow row ↔ ∃ t ∈ row, u ∈ t.leaves := by
  induction row with
  | nil => simp
  | cons t row ih => simp [ih]

@[simp] theorem leaves_ofToken (token : Token) : (ofToken token).leaves = [ofToken token] := by
  simp [ofToken, leaves]

theorem leavesRow_ofToken (tokens : List Token) : leavesRow (tokens.map ofToken) = tokens.map ofToken := by
  induction tokens with
  | nil => rfl
  | cons t tokens ih => rw [List.map_cons, leavesRow_cons, leaves_ofToken, ih, List.singleton_append]

@[simp] theorem leaves_ofChildren (label : Label) (p : Position) (row : List Tree) :
    (ofChildren label p row).leaves = leavesRow row := by
  simp [ofChildren, leaves]

/-- The symbols of a row of trees that a production counts. -/
def counted (row : List Tree) : List Symbol :=
  (row.filter (!isExtra ·)).map symbol

@[simp] theorem counted_nil : counted [] = [] := rfl

theorem counted_append (xs ys : List Tree) : counted (xs ++ ys) = counted xs ++ counted ys := by
  simp [counted]

theorem counted_cons_extra {t : Tree} (h : t.isExtra = true) (row : List Tree) :
    counted (t :: row) = counted row := by
  simp [counted, h]

theorem counted_cons {t : Tree} (h : t.isExtra = false) (row : List Tree) :
    counted (t :: row) = t.symbol :: counted row := by
  simp [counted, h]

theorem counted_eq_nil_iff {row : List Tree} :
    counted row = [] ↔ ∀ t ∈ row, t.isExtra = true := by
  simp [counted, List.filter_eq_nil_iff]

theorem head?_append_of_counted {xs ys : List Tree} (h : counted xs ≠ []) :
    (xs ++ ys).head? = xs.head? := by
  cases xs with
  | nil => exact absurd rfl h
  | cons t xs => rfl

theorem exists_of_counted_eq_cons {row : List Tree} {x : Symbol} {xs : List Symbol}
    (h : counted row = x :: xs) :
    ∃ extras t after, row = extras ++ t :: after ∧ (∀ e ∈ extras, e.isExtra = true) ∧
      t.isExtra = false ∧ t.symbol = x ∧ counted after = xs := by
  induction row with
  | nil => simp at h
  | cons t row ih =>
      by_cases ht : t.isExtra = true
      · rw [counted_cons_extra ht] at h
        obtain ⟨extras, u, after, split, allExtra, hu⟩ := ih h
        refine ⟨t :: extras, u, after, by rw [split]; rfl, ?_, hu⟩
        intro e he
        rcases List.mem_cons.1 he with rfl | he
        · exact ht
        · exact allExtra e he
      · have ht : t.isExtra = false := by simpa using ht
        rw [counted_cons ht, List.cons.injEq] at h
        exact ⟨[], t, row, rfl, by simp, ht, h.1, h.2⟩

theorem exists_head_of_counted {row : List Tree} {x : Symbol} {xs : List Symbol}
    (head : ∀ t ∈ row.head?, t.isExtra = false) (h : counted row = x :: xs) :
    ∃ t after, row = t :: after ∧ t.isExtra = false ∧ t.symbol = x ∧ counted after = xs := by
  cases row with
  | nil => cases h
  | cons t after =>
      have counts : t.isExtra = false := head t rfl
      rw [counted_cons counts, List.cons.injEq] at h
      exact ⟨t, after, rfl, counts, h.1, h.2⟩

theorem exists_last_of_counted {row : List Tree} {y : Symbol} {xs : List Symbol}
    (last : ∀ t ∈ row.getLast?, t.isExtra = false) (h : counted row = xs ++ [y]) :
    ∃ mid u, row = mid ++ [u] ∧ u.isExtra = false ∧ u.symbol = y ∧ counted mid = xs := by
  have ne : row ≠ [] := by
    rintro rfl
    simp at h
  obtain ⟨u, hu⟩ := Option.isSome_iff_exists.1 (List.getLast?_isSome.2 ne)
  obtain ⟨mid, rfl⟩ := List.getLast?_eq_some_iff.1 hu
  have counts : u.isExtra = false := last u hu
  rw [counted_append, counted_cons counts, counted_nil] at h
  obtain ⟨inner, closes⟩ := List.append_inj' h rfl
  exact ⟨mid, u, rfl, counts, (List.cons.inj closes).1, inner⟩

def Tight (row : List Tree) : Prop :=
  (∀ t ∈ row.head?, t.isExtra = false) ∧ ∀ t ∈ row.getLast?, t.isExtra = false

theorem splitTrailing_extra (row : List Tree) : ∀ t ∈ (splitTrailing row).2, t.isExtra = true := by
  intro t ht
  simp only [splitTrailing, List.mem_reverse] at ht
  exact List.all_eq_true.1 List.all_takeWhile t ht

theorem splitTrailing_getLast? (row : List Tree) :
    ∀ t ∈ (splitTrailing row).1.getLast?, t.isExtra = false := by
  intro t ht
  rw [splitTrailing, List.getLast?_reverse] at ht
  have stops := List.head?_dropWhile_not isExtra row.reverse
  rw [Option.mem_def.1 ht] at stops
  simpa using stops

theorem counted_splitTrailing (row : List Tree) : counted (splitTrailing row).1 = counted row := by
  have all : counted (splitTrailing row).2 = [] := counted_eq_nil_iff.2 (splitTrailing_extra row)
  rw [← splitTrailing_append row, counted_append, all, List.append_nil, splitTrailing_append]

theorem splitTrailing_tight {row : List Tree} (h : ∀ t ∈ row.head?, t.isExtra = false) :
    Tight (splitTrailing row).1 := by
  refine ⟨?_, splitTrailing_getLast? row⟩
  intro t ht
  apply h
  rw [← splitTrailing_append row, List.head?_append, Option.mem_def.1 ht]
  rfl

theorem splitTrailing_counted {t : Tree} (h : t.isExtra = false) (xs : List Tree)
    {extras : List Tree} (he : ∀ e ∈ extras, e.isExtra = true) :
    splitTrailing (xs ++ t :: extras) = (xs ++ [t], extras) := by
  have all : ∀ e ∈ extras.reverse, e.isExtra = true := by simpa using he
  have stops : ¬ t.isExtra = true := by simp [h]
  simp only [splitTrailing, List.reverse_append, List.reverse_cons, List.append_assoc,
    List.singleton_append]
  rw [List.dropWhile_append_of_pos all, List.takeWhile_append_of_pos all,
    List.dropWhile_cons_of_neg stops, List.takeWhile_cons_of_neg stops]
  simp

theorem splitTrailing_concat (row : List Tree) {t : Tree} (extra : t.isExtra = true) :
    splitTrailing (row ++ [t]) = ((splitTrailing row).1, (splitTrailing row).2 ++ [t]) := by
  simp [splitTrailing, extra]

theorem splitTrailing_ne_nil {row : List Tree} {t : Tree} (mem : t ∈ row)
    (h : t.isExtra = false) : (splitTrailing row).1 ≠ [] := by
  intro empty
  have extra : ∀ u ∈ row, u.isExtra = true := by
    rw [← splitTrailing_append row, empty]
    exact splitTrailing_extra row
  rw [extra t mem] at h
  contradiction

/-- Whether a tree may stand below the root: it is not a finished file, nor an error that is all
of the text. -/
def isPart : Tree → Bool
  | .leaf _ _ => true
  | .node (.production p) _ _ => p.result ≠ .sourceFile
  | .node (.error whole) _ _ => !whole
  | .node .skipped _ _ => true

end Tree

/-- The rows of trees that a label allows below it. -/
def Label.Admits : Label → List Tree → Prop
  | .production p, row => p.spells (Tree.counted row) = true ∧ Tree.Tight row
  | .error _, row => ∃ t ∈ row, t.isExtra = false
  | .skipped, row => ∃ t ∈ row, t.isExtra = false

theorem Label.ne_nil_of_admits {p : Production} {row : List Tree} (hp : p ≠ .emptyFile)
    (h : (Label.production p).Admits row) : row ≠ [] := by
  rintro rfl
  have spelt := h.1
  cases p <;> simp [Tree.counted, Production.spells] at spelt hp

namespace Tree

/-- Every node has children that its label allows and the span of its children, and only a closing
parenthesis may be missing.  The end of the text stands nowhere but at the root. -/
inductive Formed : Tree → Prop
  | leaf {token : Token} {missing : Bool} (inside : token.kind ≠ .ending)
      (h : missing = true → token.kind = .closing ∧ token.span.start = token.span.stop) :
      Formed (.leaf token missing)
  | node {label : Label} {span : Span} {row : List Tree} (p : Position)
      (admits : label.Admits row) (place : span = hull p row)
      (parts : ∀ t ∈ row, t.isPart = true) (formed : ∀ t ∈ row, Formed t) :
      Formed (.node label span row)

theorem Formed.ofToken {token : Token} (h : token.kind ≠ .ending) : Formed (ofToken token) :=
  .leaf h (by simp)

theorem Formed.missingAt (p : Position) : Formed (missingAt .closing p) :=
  .leaf (by simp) fun _ => ⟨rfl, rfl⟩

theorem Formed.ofChildren {label : Label} {row : List Tree} (p : Position)
    (admits : label.Admits row) (parts : ∀ t ∈ row, t.isPart = true)
    (formed : ∀ t ∈ row, Formed t) : Formed (ofChildren label p row) :=
  .node p admits rfl parts formed

theorem Formed.children {t : Tree} (h : Formed t) : ∀ c ∈ t.children, Formed c := by
  cases h with
  | leaf => simp [Tree.children]
  | node p admits place parts formed => exact formed

theorem Formed.parts {t : Tree} (h : Formed t) : ∀ c ∈ t.children, c.isPart = true := by
  cases h with
  | leaf => simp [Tree.children]
  | node p admits place parts formed => exact parts

theorem Formed.ne_nil {label : Label} {span : Span} {row : List Tree}
    (h : Formed (.node label span row)) (hp : (Tree.node label span row).isPart = true) :
    row ≠ [] := by
  cases h with
  | node p admits place parts formed =>
      cases label with
      | production q =>
          apply Label.ne_nil_of_admits _ admits
          rintro rfl
          simp [isPart, Production.result] at hp
      | error whole =>
          obtain ⟨t, mem, -⟩ := admits
          exact List.ne_nil_of_mem mem
      | skipped =>
          obtain ⟨t, mem, -⟩ := admits
          exact List.ne_nil_of_mem mem

theorem getLast?_leavesRow_append {xs : List Tree} {t : Tree} (h : t.leaves ≠ []) :
    (leavesRow (xs ++ [t])).getLast? = t.leaves.getLast? := by
  rw [leavesRow_append, leavesRow_cons, leavesRow_nil, List.append_nil,
    List.getLast?_append_of_ne_nil _ h]

theorem head?_leavesRow_cons {t : Tree} {row : List Tree} (h : t.leaves ≠ []) :
    (leavesRow (t :: row)).head? = t.leaves.head? := by
  obtain ⟨u, rest, hu⟩ := List.exists_cons_of_ne_nil h
  rw [leavesRow_cons, hu]
  rfl

/-- A tree begins where its first leaf begins, and ends where its last leaf ends. -/
def Extent (t : Tree) : Prop :=
  ∃ first last, t.leaves.head? = some first ∧ t.leaves.getLast? = some last ∧
    t.span = ⟨first.span.start, last.span.stop⟩

theorem Extent.leaves_ne_nil {t : Tree} (h : t.Extent) : t.leaves ≠ [] := by
  obtain ⟨first, -, head, -, -⟩ := h
  intro empty
  rw [empty] at head
  cases head

theorem extent_leaf (token : Token) (missing : Bool) : (leaf token missing).Extent :=
  ⟨.leaf token missing, .leaf token missing, by simp [leaves], by simp [leaves], rfl⟩

theorem extent_ofChildren {label : Label} {p : Position} {row : List Tree} (ne : row ≠ [])
    (h : ∀ t ∈ row, t.Extent) : (ofChildren label p row).Extent := by
  obtain ⟨t, rest, ht⟩ := List.exists_cons_of_ne_nil ne
  obtain ⟨u, hu⟩ := Option.isSome_iff_exists.1 (List.getLast?_isSome.2 ne)
  have extT := h t (ht ▸ List.mem_cons_self)
  have extU := h u (List.mem_of_getLast? hu)
  have neT := extT.leaves_ne_nil
  have neU := extU.leaves_ne_nil
  obtain ⟨first, l, headT, lastT, spanT⟩ := extT
  obtain ⟨f, last, headU, lastU, spanU⟩ := extU
  have split : row = row.dropLast ++ [u] := by
    rw [List.dropLast_append_getLast? u hu]
  have hull : hull p row = ⟨t.span.start, u.span.stop⟩ := by
    rw [Tree.hull, hu, ht]
    rfl
  refine ⟨first, last, ?_, ?_, ?_⟩
  · rw [leaves_ofChildren, ht, head?_leavesRow_cons neT, headT]
  · rw [leaves_ofChildren, split, getLast?_leavesRow_append neU, lastU]
  · rw [ofChildren, Tree.span, hull, spanT, spanU]

theorem Formed.extent {t : Tree} (h : Formed t) (hp : t.isPart = true) : t.Extent := by
  induction h with
  | @leaf token missing _ _ => exact extent_leaf token missing
  | @node label span row p admits place parts formed ih =>
      have ne : row ≠ [] := (Formed.node p admits place parts formed).ne_nil hp
      rw [place]
      exact extent_ofChildren ne fun t ht => ih t ht (parts t ht)

theorem Formed.leaves_ne_nil {t : Tree} (h : Formed t) (hp : t.isPart = true) :
    t.leaves ≠ [] :=
  (h.extent hp).leaves_ne_nil

end Tree

end MettaSyntax
