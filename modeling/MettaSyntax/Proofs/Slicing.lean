import Mathlib.Data.List.ReduceOption
import MettaSyntax.Proofs.Pointing

/-! # Cutting never fails

A text can be cut exactly between boundaries of its encoding, in order.  Every node of the tree of a text
begins and ends at such a boundary, so where the readers of a tree cut out the text of a node they find
one.  `Definition.attempt?`, `Definition.attemptAll?` and `attemptNameAt?` are these readers with every
failing cut told apart from finding nothing; what they answer shows that no cut fails. -/

set_option autoImplicit false

namespace MettaSyntax

/-! ## Boundaries -/

/-- An offset of a text that does not fall inside the encoding of a character, nor after the end. -/
def IsBoundary (text : List Char) (offset : Nat) : Prop :=
  String.Pos.Raw.IsValid (String.ofList text) ⟨offset⟩

theorem utf8ByteSize_ofList (cs : List Char) : (String.ofList cs).utf8ByteSize = byteLength cs := by
  induction cs with
  | nil => rfl
  | cons c cs ih =>
      rw [← List.singleton_append, String.ofList_append, String.utf8ByteSize_append, ih,
        ← String.singleton_eq_ofList, String.utf8ByteSize_singleton]
      rfl

theorem isBoundary_iff {text : List Char} {offset : Nat} :
    IsBoundary text offset ↔ ∃ before after, text = before ++ after ∧ offset = byteLength before := by
  rw [IsBoundary, String.Pos.Raw.isValid_ofList]
  simp only [utf8ByteSize_ofList]
  constructor
  · rintro ⟨i, place⟩
    exact ⟨text.take i, text.drop i, (List.take_append_drop i text).symm, place⟩
  · rintro ⟨before, after, rfl, place⟩
    exact ⟨before.length, by rw [List.take_left]; exact place⟩

theorem dropBytes?_eq_some_iff {n : Nat} {cs rest : List Char} :
    dropBytes? n cs = some rest ↔ ∃ before, cs = before ++ rest ∧ n = byteLength before := by
  constructor
  · intro h
    fun_induction dropBytes? n cs with
    | case1 cs => exact ⟨[], Option.some.inj h, rfl⟩
    | case2 n => cases h
    | case3 n c cs fits ih =>
        obtain ⟨before, rfl, length⟩ := ih h
        refine ⟨c :: before, rfl, ?_⟩
        rw [byteLength]
        omega
    | case4 n c cs misfit => cases h
  · rintro ⟨before, rfl, rfl⟩
    exact dropBytes?_append before rest

theorem takeBytes?_eq_some_iff {n : Nat} {cs word : List Char} :
    takeBytes? n cs = some word ↔ ∃ after, cs = word ++ after ∧ n = byteLength word := by
  constructor
  · intro h
    fun_induction takeBytes? n cs generalizing word with
    | case1 cs =>
        obtain rfl := Option.some.inj h
        exact ⟨cs, rfl, rfl⟩
    | case2 n => cases h
    | case3 n c cs fits ih =>
        obtain ⟨word', taken, rfl⟩ := Option.map_eq_some_iff.1 h
        obtain ⟨after, rfl, length⟩ := ih taken
        refine ⟨after, rfl, ?_⟩
        rw [byteLength]
        omega
    | case4 n c cs misfit => cases h
  · rintro ⟨after, rfl, rfl⟩
    exact takeBytes?_append word after

/-- A cut gives the characters between its offsets. -/
theorem slice?_eq_some_iff {text word : List Char} {start stop : Nat} :
    slice? text start stop = some word ↔ ∃ before after, text = before ++ word ++ after ∧
      start = byteLength before ∧ stop = byteLength (before ++ word) := by
  constructor
  · intro h
    unfold slice? at h
    split at h
    · next order =>
        obtain ⟨rest, dropped, taken⟩ := Option.bind_eq_some_iff.1 h
        obtain ⟨before, rfl, rfl⟩ := dropBytes?_eq_some_iff.1 dropped
        obtain ⟨after, rfl, length⟩ := takeBytes?_eq_some_iff.1 taken
        refine ⟨before, after, (List.append_assoc _ _ _).symm, rfl, ?_⟩
        rw [byteLength_append]
        omega
    · cases h
  · rintro ⟨before, after, rfl, rfl, rfl⟩
    rw [byteLength_append]
    exact slice?_append before word after

/-- A cut succeeds exactly between two boundaries in order. -/
theorem slice?_isSome_iff {text : List Char} {start stop : Nat} :
    (slice? text start stop).isSome = true ↔
      start ≤ stop ∧ IsBoundary text start ∧ IsBoundary text stop := by
  rw [Option.isSome_iff_exists, isBoundary_iff, isBoundary_iff]
  constructor
  · rintro ⟨word, cut⟩
    obtain ⟨before, after, rfl, rfl, rfl⟩ := slice?_eq_some_iff.1 cut
    refine ⟨?_, ⟨before, word ++ after, List.append_assoc _ _ _, rfl⟩, before ++ word, after, rfl, rfl⟩
    rw [byteLength_append]
    omega
  · rintro ⟨order, ⟨before, rest, split, rfl⟩, through, after, split', rfl⟩
    obtain ⟨word, rfl⟩ : before <+: through :=
      prefix_of_byteLength_le ⟨rest, split.symm⟩ ⟨after, split'.symm⟩ order
    exact ⟨word, slice?_eq_some_iff.2 ⟨before, after, split', rfl, rfl⟩⟩

/-! ## Readers that stop where a cut fails -/

namespace Definition

/-- The definition that a list is, if it is one.  The whole is `none` where the text of a node cannot be
cut out. -/
def attempt? (text : List Char) (root list : Tree) : Option (Option Definition) :=
  match (list.child? .head).bind Tree.symbolWithin? with
  | none => some none
  | some operator =>
      (operator.text? text).bind fun word =>
        match DefinitionKind.ofOperator? word with
        | none => some none
        | some kind =>
            match (list.child? .argument).bind name? with
            | none => some none
            | some name =>
                (name.text? text).bind fun spelt =>
                  (((root.listAround? name.span).getD name).text? text).map fun context =>
                    some ⟨.ofList spelt, kind, name.span, .ofList context⟩

/-- All definitions of a text, unless a cut fails at one of its lists. -/
def attemptAll? (text : List Char) (root : Tree) : Option (List Definition) :=
  (root.preorder.mapM fun (c : Cursor) =>
    if c.tree.isNonterminal .list then attempt? text root c.tree else some none).map List.reduceOption

end Definition

/-- The name under an offset, if there is one.  The whole is `none` where it cannot be cut out. -/
def attemptNameAt? (text : List Char) (root : Tree) (offset : UInt64) : Option (Option (List Char)) :=
  let t := root.nodeOver offset.toUInt32.toNat
  if t.isAtomKind .symbol || t.isAtomKind .variable then (t.text? text).map some else some none

section Readers

variable {text : List Char}

open MettaSyntax.Tree

theorem exists_text {u : Tree} (hu : u ∈ (parse text).nodes) : ∃ word, u.text? text = some word := by
  obtain ⟨word, spells⟩ := exists_spells hu
  exact ⟨word, spells.slice?⟩

theorem Definition.attempt?_eq {list : Tree} (hl : list ∈ (parse text).nodes) :
    attempt? text (parse text) list = some (ofList? text (parse text) list) := by
  unfold attempt? ofList?
  simp only [Option.bind_eq_bind]
  cases isOperator : (list.child? .head).bind symbolWithin? with
  | none => rfl
  | some operator =>
      have below := mem_nodes_of_mem_nodesRow hl (mem_nodesRow_of_child?_bind isOperator).1
      obtain ⟨word, spelt⟩ := exists_text below
      simp only [spelt, Option.bind_some]
      cases DefinitionKind.ofOperator? word with
      | none => rfl
      | some kind =>
          simp only [Option.bind_some]
          cases isArgument : list.child? .argument with
          | none => rfl
          | some argument =>
              have belowA := mem_nodes_of_mem_nodesRow hl (mem_nodesRow_of_child? isArgument)
              simp only [Option.bind_some]
              cases named : name? argument with
              | none => rfl
              | some name =>
                  have belowN := mem_nodes_of_mem_nodesRow belowA (mem_nodesRow_of_name? named).1
                  have inTree : (((parse text).listAround? name.span).getD name) ∈ (parse text).nodes := by
                    cases around : (parse text).listAround? name.span with
                    | none => exact belowN
                    | some context =>
                        have found := mem_of_lowestListAround (parse text) around
                        exact mem_nodes_of_mem_nodesRow (mem_nodes_self _) (found.resolve_left (by simp))
                  obtain ⟨nameText, nameSpelt⟩ := exists_text belowN
                  obtain ⟨contextText, contextSpelt⟩ := exists_text inTree
                  simp only [nameSpelt, contextSpelt, Option.bind_some, Option.map_some]
                  rfl

theorem mapM_eq_some_map {α β : Type} {f : α → Option β} {g : α → β} {xs : List α}
    (h : ∀ x ∈ xs, f x = some (g x)) : xs.mapM f = some (xs.map g) := by
  induction xs with
  | nil => rfl
  | cons x xs ih =>
      rw [List.mapM_cons, h x List.mem_cons_self, ih fun y hy => h y (List.mem_cons_of_mem _ hy)]
      rfl

theorem Definition.attemptAll?_eq :
    attemptAll? text (parse text) = some (all text (parse text)) := by
  have each : ∀ c ∈ (parse text).preorder,
      (if c.tree.isNonterminal .list then attempt? text (parse text) c.tree else some none) =
        some (if c.tree.isNonterminal .list then ofList? text (parse text) c.tree else none) := by
    intro c hc
    split
    · exact attempt?_eq (mem_nodes_of_mem_preorder hc)
    · rfl
  rw [attemptAll?, mapM_eq_some_map each, Option.map_some, List.reduceOption, List.filterMap_map]
  rfl

theorem attemptNameAt?_eq (offset : UInt64) :
    attemptNameAt? text (parse text) offset = some (nameAt? text (parse text) offset) := by
  have mem : (parse text).nodeOver offset.toUInt32.toNat ∈ (parse text).nodes := by
    rcases mem_of_lowestOver (parse text) (rfl : (parse text).nodeOver _ = _) with root | ⟨below, -⟩
    · rw [root]
      exact mem_nodes_self _
    · exact mem_nodes_of_mem_nodesRow (mem_nodes_self _) below
  obtain ⟨word, spelt⟩ := exists_text mem
  unfold attemptNameAt? nameAt?
  simp only [spelt]
  split <;> rfl

end Readers

/-- Whatever a text is, every node of its tree begins and ends within the text and between characters, and
does not end before it begins, so its text can be cut out; and no cut fails where the definitions are read,
nor where a name is asked for, at any offset. -/
theorem cuts_succeed (text : List Char) :
    (∀ u ∈ (parse text).nodes, u.span.start.byte ≤ u.span.stop.byte ∧
      u.span.stop.byte ≤ (String.ofList text).utf8ByteSize ∧ IsBoundary text u.span.start.byte ∧
      IsBoundary text u.span.stop.byte ∧ (u.text? text).isSome = true) ∧
    Definition.attemptAll? text (parse text) = some (Definition.all text (parse text)) ∧
    ∀ offset, attemptNameAt? text (parse text) offset = some (nameAt? text (parse text) offset) := by
  refine ⟨fun u hu => ?_, Definition.attemptAll?_eq, attemptNameAt?_eq⟩
  obtain ⟨word, spells⟩ := Tree.exists_spells hu
  have cut : (u.text? text).isSome = true := by
    rw [Tree.text?, spells.slice?]
    rfl
  obtain ⟨order, start, stop⟩ := slice?_isSome_iff.1 cut
  exact ⟨order, stop.le_utf8ByteSize, start, stop, cut⟩

end MettaSyntax
