import Mathlib.Data.List.DropRight
import MettaSyntax.Proofs.ByteOrder
import MettaSyntax.Proofs.Distances
import MettaSyntax.Proofs.Genuine
import MettaSyntax.Proofs.Slicing

/-! # Rows and columns tell the same place as bytes

`Position.counted` finds the row and the column of an offset in the bytes of a text alone: the newlines
before the offset, and the bytes since the last of them.  Every place between two characters has the row
and the column that are counted there, and no two places of a text share both.  So what is said of a text
by rows and columns is said of the bytes that the nodes of its tree stand for. -/

set_option autoImplicit false

namespace MettaSyntax

def newline : UInt8 := 10

def columns (bytes : List UInt8) : Nat :=
  (bytes.rtakeWhile (· ≠ newline)).length

/-- The place that comes after so many bytes of a text: below all newlines among them, and as far to the
right as there are bytes after the last one. -/
def Position.counted (text : List Char) (offset : Nat) : Position :=
  let before := (utf8Bytes (.ofList text)).take offset
  ⟨offset, before.count newline, columns before⟩

/-! ## Counting -/

/-- A byte that encodes a character alone is its code, and one that does so with others has its highest
bit set. -/
theorem toNat_of_mem_utf8EncodeChar {b : UInt8} {c : Char} (h : b ∈ String.utf8EncodeChar c) :
    b.toNat = c.val.toNat ∨ 128 ≤ b.toNat := by
  have high (n : Nat) (low : 128 ≤ n) (fits : n < 256) : 128 ≤ (UInt8.ofNat n).toNat := by
    rw [UInt8.toNat_ofNat', Nat.mod_eq_of_lt fits]
    exact low
  unfold String.utf8EncodeChar at h
  generalize c.val.toNat = n at *
  simp only at h
  by_cases one : n ≤ 127
  · rw [if_pos one, List.mem_singleton] at h
    refine .inl ?_
    rw [h, UInt8.toNat_ofNat', Nat.mod_eq_of_lt (by omega)]
  · rw [if_neg one] at h
    refine .inr ?_
    by_cases two : n ≤ 2047
    · rw [if_pos two] at h
      simp only [List.mem_cons, List.not_mem_nil, or_false] at h
      rcases h with rfl | rfl <;> exact high _ (by omega) (by omega)
    · rw [if_neg two] at h
      by_cases three : n ≤ 65535
      · rw [if_pos three] at h
        simp only [List.mem_cons, List.not_mem_nil, or_false] at h
        rcases h with rfl | rfl | rfl <;> exact high _ (by omega) (by omega)
      · rw [if_neg three] at h
        simp only [List.mem_cons, List.not_mem_nil, or_false] at h
        rcases h with rfl | rfl | rfl | rfl <;> exact high _ (by omega) (by omega)

/-- Only a line break has a newline in its encoding. -/
theorem newline_mem_utf8EncodeChar {c : Char} : newline ∈ String.utf8EncodeChar c ↔ c = '\n' := by
  constructor
  · intro mem
    rcases toNat_of_mem_utf8EncodeChar mem with code | high
    · exact Char.ext (UInt32.toNat_inj.1 code.symm)
    · exact absurd high (by decide)
  · rintro rfl
    decide

theorem columns_append {xs ys : List UInt8} (h : newline ∉ ys) :
    columns (xs ++ ys) = columns xs + ys.length := by
  have others : ∀ b ∈ ys.reverse, decide (b ≠ newline) = true := by
    intro b hb
    have mem : b ∈ ys := List.mem_reverse.1 hb
    exact decide_eq_true fun same => h (same ▸ mem)
  rw [columns, List.rtakeWhile, List.reverse_append, List.takeWhile_append_of_pos others,
    List.reverse_append, List.reverse_reverse, List.length_append, columns, List.rtakeWhile]

theorem columns_newline (xs : List UInt8) : columns (xs ++ [newline]) = 0 := by
  rw [columns, List.rtakeWhile_concat_neg _ _ _ (by simp)]
  rfl

theorem length_flatMap_utf8EncodeChar (cs : List Char) :
    (cs.flatMap String.utf8EncodeChar).length = byteLength cs := by
  induction cs with
  | nil => rfl
  | cons c cs ih =>
      rw [List.flatMap_cons, List.length_append, String.length_utf8EncodeChar, ih, byteLength]

/-- Going on from the origin counts bytes, newlines, and the bytes since the last newline. -/
theorem Position.after_origin_eq (cs : List Char) :
    Position.origin.after cs = ⟨byteLength cs, (cs.flatMap String.utf8EncodeChar).count newline,
      columns (cs.flatMap String.utf8EncodeChar)⟩ := by
  induction cs using List.reverseRecOn with
  | nil => rfl
  | append_singleton cs c ih =>
      have single : byteLength [c] = c.utf8Size := rfl
      rw [after_append, ih, after_cons, after_nil, byteLength_append, single, List.flatMap_append,
        List.flatMap_singleton, List.count_append]
      by_cases line : c = '\n'
      · have encoded : String.utf8EncodeChar c = [newline] := by
          rw [line]
          decide
        rw [encoded, columns_newline, next, if_pos line, line]
        rfl
      · have none : newline ∉ String.utf8EncodeChar c := fun mem => line (newline_mem_utf8EncodeChar.1 mem)
        rw [columns_append none, List.count_eq_zero.2 none, String.length_utf8EncodeChar, next, if_neg line]
        rfl

namespace Position

variable {text : List Char}

/-- A place between two characters has the row and the column that are counted in the bytes. -/
theorem Parts.eq_counted {p : Position} (h : p.Parts text) : p = counted text p.byte := by
  obtain ⟨before, after, rfl, rfl⟩ := h
  have taken : (utf8Bytes (.ofList (before ++ after))).take (byteLength before) =
      before.flatMap String.utf8EncodeChar := by
    rw [utf8Bytes_eq, String.toList_ofList, List.flatMap_append, ← length_flatMap_utf8EncodeChar,
      List.take_left]
  rw [Lexer.byte_after_origin, counted, taken]
  exact after_origin_eq before

/-- No two places of a text share both their row and their column. -/
theorem counted_injective {i j : Nat} (hi : i ≤ (utf8Bytes (.ofList text)).length)
    (hj : j ≤ (utf8Bytes (.ofList text)).length) (row : (counted text i).row = (counted text j).row)
    (column : (counted text i).column = (counted text j).column) : i = j := by
  wlog order : i ≤ j generalizing i j
  · exact (this hj hi row.symm column.symm (Nat.le_of_not_le order)).symm
  obtain ⟨more, rfl⟩ := Nat.exists_eq_add_of_le order
  let between := ((utf8Bytes (.ofList text)).drop i).take more
  have split : (utf8Bytes (.ofList text)).take (i + more) =
      (utf8Bytes (.ofList text)).take i ++ between := List.take_add
  have width : between.length = more := by
    rw [List.length_take, List.length_drop]
    omega
  simp only [counted, split] at row column
  -- on one row there is no newline from the first place to the second, so the columns tell how far it is
  have none : newline ∉ between := by
    rw [List.count_append] at row
    exact List.count_eq_zero.1 (by omega)
  rw [columns_append none] at column
  omega

end Position

/-! ## What is said of a text -/

/-- A span lies within a text, and its rows and columns are those of its bytes. -/
structure Span.Agrees (text : List Char) (s : Span) : Prop where
  start : s.start = .counted text s.start.byte
  stop : s.stop = .counted text s.stop.byte
  order : s.start.byte ≤ s.stop.byte
  within : s.stop.byte ≤ (utf8Bytes (.ofList text)).length

section Spans

variable {text : List Char}

theorem Span.Spells.agrees {s : Span} {word : List Char} (h : s.Spells text word) : s.Agrees text where
  start := h.start.eq_counted
  stop := h.stop.eq_counted
  order := by
    obtain ⟨before, after, -, rfl⟩ := h
    rw [Position.after_append, Position.byte_after (Position.origin.after before)]
    exact Nat.le_add_right _ _
  within := by
    obtain ⟨before, after, rfl, rfl⟩ := h
    rw [utf8Bytes_eq, String.toList_ofList, length_flatMap_utf8EncodeChar, Lexer.byte_after_origin,
      byteLength_append (before ++ word)]
    exact Nat.le_add_right _ _

theorem Tree.agrees_of_mem_nodes {u : Tree} (hu : u ∈ (parse text).nodes) : u.span.Agrees text := by
  obtain ⟨word, spells⟩ := exists_spells hu
  exact spells.agrees

/-- The place of a definition is that of a node with the name as its text. -/
theorem Definition.exists_node {d : Definition} (hd : d ∈ all text (parse text)) :
    ∃ u ∈ (parse text).nodes, u.span = d.span ∧ u.text? text = some d.name.toList := by
  obtain ⟨c, hc, found⟩ := List.mem_filterMap.1 hd
  obtain ⟨-, found⟩ := Option.ite_none_right_eq_some.1 found
  obtain ⟨head, operator, word, argument, name, -, -, -, -, isArgument, named, place, spelt, -⟩ :=
    ofList?_eq_some found
  have inTree := Tree.mem_nodes_of_mem_nodesRow (Tree.mem_nodes_of_mem_preorder hc)
    (Tree.mem_nodesRow_of_child? isArgument)
  exact ⟨name, Tree.mem_nodes_of_mem_nodesRow inTree (Tree.mem_nodesRow_of_name? named).1, place, spelt⟩

/-- The place of a diagnostic is that of the node that it is about. -/
theorem Diagnostic.exists_node {d : Diagnostic} (hd : d ∈ all (parse text)) :
    ∃ u ∈ (parse text).nodes, of? u = some d ∧ u.span = d.span := by
  obtain ⟨c, hc, found⟩ := List.mem_filterMap.1 hd
  refine ⟨c.tree, Tree.mem_nodes_of_mem_preorder hc, found, ?_⟩
  unfold of? at found
  by_cases error : c.tree.isError = true
  · rw [if_pos error] at found
    exact congrArg Diagnostic.span (Option.some.inj found)
  · rw [if_neg error] at found
    obtain ⟨-, found⟩ := Option.ite_none_right_eq_some.1 found
    exact congrArg Diagnostic.span (Option.some.inj found)

/-- A semantic token stands for a node on one row. -/
theorem SemanticToken.exists_node {s : Stretch} (hs : s ∈ decode (encode text (parse text))) :
    ∃ u ∈ (parse text).nodes, u.span.stretch = s ∧ u.span.start.row = u.span.stop.row := by
  rw [decode_encode, HighlightSpan.stretches_kept] at hs
  obtain ⟨t, ht, onOneRow, same⟩ := (Lexer.mem_stretches text).1 hs
  exact ⟨.ofToken t, Tree.ofToken_mem_nodes ht, same, ((Token.onOneRow_iff t).1 onOneRow).2⟩

end Spans

/-- Whatever a text is, the rows and columns of every node of its tree are those that are counted in the
bytes before its ends, although they are found by adding up distances; rows and columns tell places of the
text apart; and what is said of definitions, of faults and of semantic tokens by rows and columns is said
of the bytes of such nodes. -/
theorem points_agree (text : List Char) :
    (∀ u ∈ (parse text).nodes, u.span.Agrees text) ∧
    ((parse text).measured .origin).spans .origin = (parse text).nodes.map Tree.span ∧
    (∀ i j, i ≤ (utf8Bytes (.ofList text)).length → j ≤ (utf8Bytes (.ofList text)).length →
      (Position.counted text i).row = (Position.counted text j).row →
      (Position.counted text i).column = (Position.counted text j).column → i = j) ∧
    (∀ d ∈ Definition.all text (parse text), d.span.Agrees text ∧
      ∃ u ∈ (parse text).nodes, u.span = d.span ∧ u.text? text = some d.name.toList) ∧
    (∀ d ∈ Diagnostic.all (parse text), d.span.Agrees text ∧
      ∃ u ∈ (parse text).nodes, Diagnostic.of? u = some d ∧ u.span = d.span) ∧
    ∀ s ∈ SemanticToken.decode (SemanticToken.encode text (parse text)),
      ∃ u ∈ (parse text).nodes, u.span.Agrees text ∧ u.span.stretch = s ∧
        u.span.start.row = u.span.stop.row := by
  refine ⟨fun u hu => Tree.agrees_of_mem_nodes hu, Tree.spans_measured_parse text,
    fun i j hi hj => Position.counted_injective hi hj, fun d hd => ?_, fun d hd => ?_, fun s hs => ?_⟩
  · obtain ⟨u, hu, place, spelt⟩ := Definition.exists_node hd
    exact ⟨place ▸ Tree.agrees_of_mem_nodes hu, u, hu, place, spelt⟩
  · obtain ⟨u, hu, found, place⟩ := Diagnostic.exists_node hd
    exact ⟨place ▸ Tree.agrees_of_mem_nodes hu, u, hu, found, place⟩
  · obtain ⟨u, hu, same, row⟩ := SemanticToken.exists_node hs
    exact ⟨u, hu, Tree.agrees_of_mem_nodes hu, same, row⟩

end MettaSyntax
