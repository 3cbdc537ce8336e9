import Mathlib.Data.List.Sort
import MettaSyntax.Highlight.SemanticToken
import MettaSyntax.Proofs.Placement

/-! # Reading semantic tokens back

The highlights of a tree are sorted, and `HighlightSpan.kept` lists those that become tokens: one at
each place, and there the one with the smallest number.  `SemanticToken.decode` adds the relative
positions up again, and gives back the rows, columns and lengths of what was kept. -/

set_option autoImplicit false

namespace MettaSyntax

/-- Lists that are strictly sorted and have the same members are the same. -/
theorem eq_of_strictly_sorted {α : Type} {r : α → α → Prop} (asymm : ∀ a b, r a b → ¬ r b a)
    {xs ys : List α} (hx : xs.Pairwise r) (hy : ys.Pairwise r) (mem : ∀ a, a ∈ xs ↔ a ∈ ys) :
    xs = ys := by
  have irrefl : Std.Irrefl r := ⟨fun a h => asymm a a h h⟩
  have antisymm : Std.Antisymm r := ⟨fun a b h h' => absurd h' (asymm a b h)⟩
  exact hx.eq_of_mem_iff hy mem

namespace HighlightSpan

/-- Two highlights begin at one place. -/
def Meets (a b : HighlightSpan) : Prop :=
  a.start.row = b.start.row ∧ a.start.column = b.start.column

def Before (a b : HighlightSpan) : Prop :=
  a.start.before b.start = true

theorem le_iff (a b : HighlightSpan) : le a b = true ↔ a.Before b ∨ a.Meets b ∧ a.index ≤ b.index := by
  unfold le Before Meets
  simp only [Bool.or_eq_true, Bool.and_eq_true, Bool.not_eq_true', Bool.eq_false_iff, ne_eq,
    Position.before_iff, decide_eq_true_eq]
  omega

theorem all_sorted (text : List Char) (root : Tree) :
    (all text root).Pairwise fun a b => le a b = true := by
  apply List.pairwise_mergeSort
  · intro a b c hab hbc
    rw [le_iff] at *
    unfold Before Meets at *
    simp only [Position.before_iff] at *
    omega
  · intro a b
    rw [Bool.or_eq_true, le_iff, le_iff]
    unfold Before Meets
    simp only [Position.before_iff]
    omega

theorem mem_all {text : List Char} {root : Tree} {h : HighlightSpan} :
    h ∈ all text root ↔ ∃ capture ∈ Highlight.captures text root, of? capture = some h := by
  rw [all, (List.mergeSort_perm _ _).mem_iff, List.mem_filterMap]

/-! ## What is kept -/

/-- The highlights that become tokens: those that begin after the one kept last. -/
def kept : Option Position → List HighlightSpan → List HighlightSpan
  | _, [] => []
  | none, h :: rest => h :: kept (some h.start) rest
  | some previous, h :: rest =>
      if previous.before h.start then h :: kept (some h.start) rest else kept (some previous) rest

theorem kept_sublist (previous : Option Position) (hs : List HighlightSpan) :
    (kept previous hs).Sublist hs := by
  fun_induction kept previous hs with
  | case1 => exact List.Sublist.refl _
  | case2 h rest ih => exact ih.cons_cons _
  | case3 previous h rest later ih => exact ih.cons_cons _
  | case4 previous h rest later ih => exact ih.cons _

theorem kept_after {previous : Position} {hs : List HighlightSpan} :
    ∀ k ∈ kept (some previous) hs, previous.before k.start = true := by
  induction hs generalizing previous with
  | nil => simp [kept]
  | cons h rest ih =>
      intro k hk
      rw [kept] at hk
      split at hk
      · next later =>
          rcases List.mem_cons.1 hk with rfl | hk
          · exact later
          · exact Position.before_trans later (ih k hk)
      · exact ih k hk

theorem kept_ascend (previous : Option Position) (hs : List HighlightSpan) :
    (kept previous hs).Pairwise Before := by
  fun_induction kept previous hs with
  | case1 => exact List.Pairwise.nil
  | case2 h rest ih => exact List.pairwise_cons.2 ⟨kept_after, ih⟩
  | case3 previous h rest later ih => exact List.pairwise_cons.2 ⟨kept_after, ih⟩
  | case4 previous h rest later ih => exact ih

/-- At every place at which a highlight begins after the one kept last, one with the smallest number
is kept. -/
theorem exists_kept_after {last : HighlightSpan} {hs : List HighlightSpan}
    (sorted : (last :: hs).Pairwise fun a b => le a b = true) :
    ∀ h ∈ last :: hs, ∃ k ∈ last :: kept (some last.start) hs, k.Meets h ∧ k.index ≤ h.index := by
  induction hs generalizing last with
  | nil =>
      intro h mem
      obtain rfl := List.mem_singleton.1 mem
      exact ⟨h, List.mem_cons_self, ⟨rfl, rfl⟩, Nat.le_refl _⟩
  | cons first rest ih =>
      obtain ⟨least, sortedRest⟩ := List.pairwise_cons.1 sorted
      obtain ⟨leastRest, sortedTail⟩ := List.pairwise_cons.1 sortedRest
      rw [kept]
      split
      · intro h mem
        rcases List.mem_cons.1 mem with rfl | mem
        · exact ⟨h, List.mem_cons_self, ⟨rfl, rfl⟩, Nat.le_refl _⟩
        · obtain ⟨k, hk, found⟩ := ih sortedRest h mem
          exact ⟨k, List.mem_cons_of_mem _ hk, found⟩
      · next same =>
          -- a highlight that does not begin later has no smaller number, since the row is sorted
          have meets : last.Meets first ∧ last.index ≤ first.index := by
            rcases (le_iff _ _).1 (least first List.mem_cons_self) with before | meets
            · exact absurd before same
            · exact meets
          have sortedLast : (last :: rest).Pairwise fun a b => le a b = true := by
            refine List.pairwise_cons.2 ⟨fun h mem => ?_, sortedTail⟩
            exact least h (List.mem_cons_of_mem _ mem)
          intro h mem
          rcases List.mem_cons.1 mem with rfl | mem
          · exact ⟨h, List.mem_cons_self, ⟨rfl, rfl⟩, Nat.le_refl _⟩
          · rcases List.mem_cons.1 mem with rfl | mem
            · exact ⟨last, List.mem_cons_self, meets⟩
            · exact ih sortedLast h (List.mem_cons_of_mem _ mem)

theorem exists_kept {hs : List HighlightSpan} (sorted : hs.Pairwise fun a b => le a b = true) :
    ∀ h ∈ hs, ∃ k ∈ kept none hs, k.Meets h ∧ k.index ≤ h.index := by
  cases hs with
  | nil => simp
  | cons first rest => exact exists_kept_after sorted

end HighlightSpan

namespace SemanticToken

/-- The tokens of a row of highlights, each relative to the one before it. -/
def relativeTo : Position → List HighlightSpan → List SemanticToken
  | _, [] => []
  | previous, h :: rest =>
      relative previous h.start h.length h.type :: relativeTo h.start rest

theorem relative_origin (p : Position) (length type : Nat) :
    relative .origin p length type = ⟨p.row, p.column, length, type⟩ := by
  unfold relative
  split
  · rfl
  · next top =>
      have zero : p.row = 0 := by
        have : ¬ 0 < p.row := top
        omega
      rw [zero]
      rfl

theorem chain_some (previous : Position) (hs : List HighlightSpan) :
    chain (some previous) hs = relativeTo previous (HighlightSpan.kept (some previous) hs) := by
  induction hs generalizing previous with
  | nil => rfl
  | cons h rest ih =>
      rw [chain, HighlightSpan.kept]
      split
      · rw [relativeTo, ih]
      · exact ih previous

theorem all_eq (text : List Char) (root : Tree) :
    all text root = relativeTo .origin (HighlightSpan.kept none (HighlightSpan.all text root)) := by
  rw [all]
  cases HighlightSpan.all text root with
  | nil => rfl
  | cons h rest => rw [chain, HighlightSpan.kept, relativeTo, relative_origin, chain_some]

theorem relativeTo_append (p : Position) (xs ys : List HighlightSpan) :
    ∃ q, relativeTo p (xs ++ ys) = relativeTo p xs ++ relativeTo q ys := by
  induction xs generalizing p with
  | nil => exact ⟨p, rfl⟩
  | cons h xs ih =>
      obtain ⟨q, rest⟩ := ih h.start
      exact ⟨q, by rw [List.cons_append, relativeTo, relativeTo, rest, List.cons_append]⟩

end SemanticToken

/-! ## Decoding -/

/-- A stretch of a row: where it begins, and its length in bytes. -/
structure Stretch where
  row : Nat
  column : Nat
  length : Nat
  deriving DecidableEq

namespace Stretch

/-- One stretch ends before another begins, or on an earlier row. -/
def Precedes (a b : Stretch) : Prop :=
  a.row < b.row ∨ a.row = b.row ∧ a.column + a.length ≤ b.column

end Stretch

def HighlightSpan.stretch (h : HighlightSpan) : Stretch :=
  ⟨h.start.row, h.start.column, h.length⟩

namespace SemanticToken

/-- The stretches that a row of numbers stands for, five for each, when the one before them begins at
a row and column. -/
def decodeFrom (row column : Nat) : List Nat → List Stretch
  | line :: start :: length :: _ :: _ :: rest =>
      let place := if line = 0 then column + start else start
      ⟨row + line, place, length⟩ :: decodeFrom (row + line) place rest
  | _ => []

def decode (numbers : List Nat) : List Stretch :=
  decodeFrom 0 0 numbers

theorem decodeFrom_relativeTo {p : Position} {hs : List HighlightSpan}
    (ascend : hs.Pairwise HighlightSpan.Before)
    (later : ∀ h ∈ hs, h.start.before p = false) :
    decodeFrom p.row p.column ((relativeTo p hs).flatMap toList) = hs.map HighlightSpan.stretch := by
  induction hs generalizing p with
  | nil => rfl
  | cons h rest ih =>
      obtain ⟨first, ascendRest⟩ := List.pairwise_cons.1 ascend
      have after := later h List.mem_cons_self
      rw [Bool.eq_false_iff, ne_eq, Position.before_iff] at after
      have tail := ih ascendRest fun k hk => Position.before_asymm (first k hk)
      rw [relativeTo, List.flatMap_cons, List.map_cons]
      unfold relative
      split
      · next below =>
          have row : p.row + (h.start.row - p.row) = h.start.row := by omega
          have moved : h.start.row - p.row ≠ 0 := by omega
          rw [toList, List.cons_append, List.cons_append, List.cons_append, List.cons_append,
            List.cons_append, List.nil_append, decodeFrom, if_neg moved, row, tail]
          rfl
      · next level =>
          have row : p.row = h.start.row := by omega
          have column : p.column + (h.start.column - p.column) = h.start.column := by omega
          rw [toList, List.cons_append, List.cons_append, List.cons_append, List.cons_append,
            List.cons_append, List.nil_append, decodeFrom, if_pos rfl, column, Nat.add_zero, row,
            tail]
          rfl

/-- Decoding gives back the stretches of the highlights that were kept. -/
theorem decode_encode (text : List Char) (root : Tree) :
    decode (encode text root) =
      (HighlightSpan.kept none (HighlightSpan.all text root)).map HighlightSpan.stretch := by
  rw [encode, all_eq, decode]
  apply decodeFrom_relativeTo (p := .origin) (HighlightSpan.kept_ascend _ _)
  intro h _
  rw [Bool.eq_false_iff, ne_eq, Position.before_iff, Position.origin]
  simp

theorem length_relativeTo (p : Position) (hs : List HighlightSpan) :
    (relativeTo p hs).length = hs.length := by
  induction hs generalizing p with
  | nil => rfl
  | cons h rest ih => rw [relativeTo, List.length_cons, List.length_cons, ih]

/-- A token takes five numbers. -/
theorem length_encode (text : List Char) (root : Tree) :
    (encode text root).length =
      5 * (HighlightSpan.kept none (HighlightSpan.all text root)).length := by
  have five : ∀ t : SemanticToken, t.toList.length = 5 := fun _ => rfl
  rw [encode, List.length_flatMap, List.map_congr_left fun t _ => five t, List.map_const',
    List.sum_replicate_nat, all_eq, length_relativeTo, Nat.mul_comm]

end SemanticToken

end MettaSyntax
