import MettaSyntax.Highlight.SemanticToken
import MettaSyntax.Proofs.Children

/-! # What the highlighting query finds

A pattern finds at a visible node what `Pattern.matchTree` finds in the tree below it, wherever the node
stands.  What it captures are tokens below the node, under the names that it gives them. -/

set_option autoImplicit false

namespace MettaSyntax

namespace Tree

theorem mem_nodes_self (t : Tree) : t ∈ t.nodes := by
  rw [nodes_eq]
  exact List.mem_cons_self

theorem mem_nodesRow_of_mem {t : Tree} {row : List Tree} (h : t ∈ row) : t ∈ nodesRow row :=
  mem_nodesRow.2 ⟨t, h, mem_nodes_self t⟩

mutual

theorem nodes_subset_nodes {t u : Tree} (h : u ∈ t.nodes) : u.nodes ⊆ t.nodes := by
  match t with
  | .leaf token missing =>
      rw [nodes] at h
      rw [List.mem_singleton.1 h]
      exact List.Subset.refl _
  | .node label span children =>
      rw [nodes] at h
      rcases List.mem_cons.1 h with rfl | below
      · exact List.Subset.refl _
      · rw [nodes]
        exact List.Subset.trans (nodes_subset_nodesRow below) (List.subset_cons_self _ _)

/-- What is below a node below a row is below the row. -/
theorem nodes_subset_nodesRow {row : List Tree} {u : Tree} (h : u ∈ nodesRow row) :
    u.nodes ⊆ nodesRow row := by
  match row with
  | [] => cases h
  | t :: row =>
      rw [nodesRow] at h ⊢
      rcases List.mem_append.1 h with here | later
      · exact List.Subset.trans (nodes_subset_nodes here) (List.subset_append_left _ _)
      · exact List.Subset.trans (nodes_subset_nodesRow later) (List.subset_append_right _ _)

end

theorem mem_nodes_of_mem_nodesRow {t u v : Tree} (hu : u ∈ t.nodes) (hv : v ∈ nodesRow u.children) :
    v ∈ t.nodes := by
  apply nodes_subset_nodes hu
  rw [nodes_eq]
  exact List.mem_cons_of_mem _ hv

theorem mem_of_mem_labelledChildren {t : Tree} {d : Labelled} (h : d ∈ t.labelledChildren) :
    d.2 ∈ nodesRow t.children ∧ d.2.isVisible = true := by
  have mem : d.2 ∈ visibleRow t.children := by
    rw [← map_snd_labelledRow t.fields none 0]
    exact List.mem_map_of_mem h
  exact ⟨visibleRow_subset_nodesRow _ mem, isVisible_of_mem_visibleRow mem⟩

end Tree

namespace Pattern

mutual

/-- The captures of each way in which a pattern matches a tree. -/
def matchTree : Pattern → Tree → List (List Capture)
  | .node symbol capture children, t =>
      if t.symbol = symbol then
        (matchBelow children t.labelledChildren).map
          ((capture.map fun name => (name, t)).toList ++ ·)
      else []

/-- The captures of each way in which a row of patterns matches some of a row of labelled nodes. -/
def matchBelow : List (Option Field × Pattern) → List Labelled → List (List Capture)
  | [], _ => [[]]
  | (field, p) :: more, row =>
      (choices row).flatMap fun (d, after) =>
        if field.all fun f => d.1 = some f then
          (matchTree p d.2).flatMap fun first => (matchBelow more after).map (first ++ ·)
        else []

end

theorem choices_map {α β : Type} (f : α → β) (row : List α) :
    choices (row.map f) = (choices row).map fun (a, after) => (f a, after.map f) := by
  induction row with
  | nil => rfl
  | cons a row ih => simp [choices, ih]

theorem append_of_mem_choices {α : Type} {row after : List α} {a : α}
    (h : (a, after) ∈ choices row) : ∃ before, row = before ++ a :: after := by
  induction row with
  | nil => cases h
  | cons b row ih =>
      rw [choices] at h
      rcases List.mem_cons.1 h with same | h
      · obtain ⟨rfl, rfl⟩ := Prod.mk.inj same
        exact ⟨[], rfl⟩
      · obtain ⟨before, rfl⟩ := ih h
        exact ⟨b :: before, rfl⟩

theorem mem_choices_append {α : Type} (before after : List α) (a : α) :
    (a, after) ∈ choices (before ++ a :: after) := by
  induction before with
  | nil => exact List.mem_cons_self
  | cons b before ih => exact List.mem_cons_of_mem _ ih

theorem isVisible_of_mem_childCursors {c d : Cursor} (h : c.tree.isVisible = true)
    (hd : d ∈ c.childCursors) : d.tree.isVisible = true := by
  have mem : d.label ∈ c.tree.labelledChildren := by
    rw [← Cursor.map_label_childCursors h]
    exact List.mem_map_of_mem hd
  exact (Tree.mem_of_mem_labelledChildren mem).2

mutual

/-- What a pattern finds at a visible node depends on the tree below it alone. -/
theorem matchAt_eq (p : Pattern) (c : Cursor) (h : c.tree.isVisible = true) :
    p.matchAt c = p.matchTree c.tree := by
  match p with
  | .node symbol capture children =>
      have below := matchRow_eq children c.childCursors fun d => isVisible_of_mem_childCursors h
      rw [matchAt, matchTree, below, Cursor.map_label_childCursors h]

theorem matchRow_eq (ps : List (Option Field × Pattern)) (row : List Cursor)
    (h : ∀ c ∈ row, c.tree.isVisible = true) :
    matchRow ps row = matchBelow ps (row.map Cursor.label) := by
  match ps with
  | [] => rw [matchRow, matchBelow]
  | (field, p) :: more =>
      rw [matchRow, matchBelow, choices_map, List.flatMap_map]
      apply List.flatMap_congr
      rintro ⟨d, after⟩ chosen
      obtain ⟨before, rfl⟩ := append_of_mem_choices chosen
      have here := matchAt_eq p d (h d (by simp))
      have rest := matchRow_eq more after fun e he => h e (by simp [he])
      simp only [here, rest]
      rfl

end

/-- The symbol of the nodes that a pattern matches. -/
def symbol : Pattern → Symbol
  | .node symbol _ _ => symbol

theorem symbol_of_mem_matchTree {p : Pattern} {t : Tree} {found : List Capture}
    (h : found ∈ p.matchTree t) : t.symbol = p.symbol := by
  obtain ⟨symbol, capture, children⟩ := p
  rw [matchTree] at h
  split at h
  · next same => exact same
  · cases h

/-! ## What is captured -/

mutual

/-- The names that a pattern gives to captures, each with the symbol of the nodes under it. -/
def targets : Pattern → List (String × Symbol)
  | .node symbol capture children =>
      (capture.map fun name => (name, symbol)).toList ++ targetsRow children

def targetsRow : List (Option Field × Pattern) → List (String × Symbol)
  | [] => []
  | (_, p) :: more => targets p ++ targetsRow more

end

/-- A capture of a visible node below a tree, under one of the names of a pattern. -/
def Targets (names : List (String × Symbol)) (t : Tree) (capture : Capture) : Prop :=
  (capture.1, capture.2.symbol) ∈ names ∧ capture.2 ∈ t.nodes ∧ capture.2.isVisible = true

mutual

theorem targets_matchTree (p : Pattern) (t : Tree) (h : t.isVisible = true) :
    ∀ found ∈ p.matchTree t, ∀ capture ∈ found, Targets p.targets t capture := by
  match p with
  | .node symbol name children =>
      rw [matchTree, targets]
      split
      · next same =>
          intro found mem capture hc
          obtain ⟨inner, hi, rfl⟩ := List.mem_map.1 mem
          rcases List.mem_append.1 hc with hc | hc
          · obtain ⟨name, rfl⟩ : ∃ n, name = some n := by
              cases name with
              | none => cases hc
              | some n => exact ⟨n, rfl⟩
            obtain rfl := List.mem_singleton.1 hc
            exact ⟨by simp [same], Tree.mem_nodes_self t, h⟩
          · have visible : ∀ d ∈ t.labelledChildren, d.2.isVisible = true := fun d hd =>
              (Tree.mem_of_mem_labelledChildren hd).2
            obtain ⟨d, hd, named, below, seen⟩ :=
              targets_matchBelow children t.labelledChildren visible inner hi capture hc
            refine ⟨List.mem_append_right _ named, ?_, seen⟩
            rw [Tree.nodes_eq]
            exact List.mem_cons_of_mem _
              (Tree.nodes_subset_nodesRow (Tree.mem_of_mem_labelledChildren hd).1 below)
      · intro found mem
        cases mem

theorem targets_matchBelow (ps : List (Option Field × Pattern)) (row : List Labelled)
    (h : ∀ d ∈ row, d.2.isVisible = true) :
    ∀ found ∈ matchBelow ps row, ∀ capture ∈ found,
      ∃ d ∈ row, Targets (targetsRow ps) d.2 capture := by
  match ps with
  | [] =>
      intro found mem capture hc
      rw [matchBelow] at mem
      obtain rfl := List.mem_singleton.1 mem
      cases hc
  | (field, p) :: more =>
      intro found mem capture hc
      rw [matchBelow] at mem
      obtain ⟨⟨d, after⟩, chosen, matched⟩ := List.mem_flatMap.1 mem
      obtain ⟨before, rfl⟩ := append_of_mem_choices chosen
      dsimp only at matched
      split at matched
      · obtain ⟨first, hf, matched⟩ := List.mem_flatMap.1 matched
        obtain ⟨rest, hr, rfl⟩ := List.mem_map.1 matched
        rw [targetsRow]
        rcases List.mem_append.1 hc with hc | hc
        · obtain ⟨named, below⟩ := targets_matchTree p d.2 (h d (by simp)) first hf capture hc
          exact ⟨d, by simp, List.mem_append_left _ named, below⟩
        · obtain ⟨e, he, named, below⟩ :=
            targets_matchBelow more after (fun e he => h e (by simp [he])) rest hr capture hc
          exact ⟨e, by simp [he], List.mem_append_right _ named, below⟩
      · cases matched

end

end Pattern

/-- Which texts a rule allows depends on the texts of the captured nodes alone. -/
theorem HighlightRule.admits_congr (rule : HighlightRule) {text text' : List Char}
    {found : List Capture} (h : ∀ capture ∈ found, capture.2.text? text = capture.2.text? text') :
    rule.admits text found = rule.admits text' found := by
  unfold admits
  cases rule.allowed with
  | none => rfl
  | some allowed =>
      obtain ⟨name, texts⟩ := allowed
      simp only [Option.all_some]
      rw [Bool.eq_iff_iff, List.all_eq_true, List.all_eq_true]
      refine forall₂_congr fun capture mem => ?_
      rw [h capture mem]

namespace Highlight

/-- The rules match lists and tokens. -/
theorem symbol_of_mem_rules : ∀ rule ∈ rules, rule.pattern.symbol = .nonterminal .list ∨
    ∃ kind, rule.pattern.symbol = .token kind := by
  simp [rules, leaf, listHeadedBy, Pattern.symbol]

/-- The symbols that the rules capture, each with the name that it is captured under. -/
def targets : List (String × Symbol) :=
  rules.flatMap (·.pattern.targets)

/-- A capture of the query is one of a rule at a visible node. -/
theorem mem_captures {text : List Char} {root : Tree} {capture : Capture}
    (visible : root.isVisible = true) :
    capture ∈ captures text root ↔
      ∃ rule ∈ rules, ∃ t ∈ root.nodes, t.isVisible = true ∧
        ∃ found ∈ rule.pattern.matchTree t, rule.admits text found = true ∧ capture ∈ found := by
  have nodes : root.nodes.filter Tree.isVisible = root.preorder.map Cursor.tree := by
    rw [Tree.map_tree_preorder, Tree.nodes_eq, List.filter_cons_of_pos visible]
  have step (rule : HighlightRule) : rule.captures text root =
      (root.nodes.filter Tree.isVisible).flatMap fun t =>
        ((rule.pattern.matchTree t).filter (rule.admits text)).flatten := by
    rw [nodes, HighlightRule.captures, List.flatMap_map]
    apply List.flatMap_congr
    intro c hc
    have mem : c.tree ∈ root.nodes.filter Tree.isVisible := nodes ▸ List.mem_map_of_mem hc
    rw [Pattern.matchAt_eq _ c (List.mem_filter.1 mem).2]
  simp only [captures, step, List.mem_flatMap, List.mem_flatten, List.mem_filter, and_assoc]

/-- Only tokens are captured. -/
theorem token_of_mem_targets : ∀ target ∈ targets, ∃ kind, target.2 = .token kind ∧ kind ≠ .ending := by
  have all : ∀ target ∈ targets,
      (TokenKind.comment :: TokenKind.structural.tail).any (target.2 = .token ·) = true := by
    decide
  intro target mem
  obtain ⟨kind, hk, same⟩ := List.any_eq_true.1 (all target mem)
  refine ⟨kind, by simpa using same, ?_⟩
  rintro rfl
  revert hk
  decide

/-- A visible token is captured as it stands, and the name that it is captured under has a type. -/
theorem token_captured (text : List Char) {root t : Tree} (visible : root.isVisible = true)
    (mem : t ∈ root.nodes) {kind : TokenKind} (symbol : t.symbol = .token kind)
    (inside : kind ≠ .ending) (lexable : kind ≠ .unlexable) :
    ∃ name type, SemanticToken.typeOf? name = some type ∧ (name, t) ∈ captures text root := by
  have rule : ∃ name type, SemanticToken.typeOf? name = some type ∧
      ⟨leaf kind name, none⟩ ∈ rules := by
    rcases kind with _ | _ | _ | (_ | _ | _ | _) | _ | _
    · exact absurd rfl inside
    · exact ⟨"punctuation.bracket", 10, rfl, by simp [rules]⟩
    · exact ⟨"punctuation.bracket", 10, rfl, by simp [rules]⟩
    · exact ⟨"symbol", 5, rfl, by simp [rules]⟩
    · exact ⟨"variable", 5, rfl, by simp [rules]⟩
    · exact ⟨"string", 1, rfl, by simp [rules]⟩
    · exact ⟨"number", 3, rfl, by simp [rules]⟩
    · exact ⟨"comment", 0, rfl, by simp [rules]⟩
    · exact absurd rfl lexable
  obtain ⟨name, type, typed, rule⟩ := rule
  have seen : t.isVisible = true := by
    rw [Tree.isVisible, symbol]
    cases kind with
    | ending => exact absurd rfl inside
    | _ => rfl
  have found : (leaf kind name).matchTree t = [[(name, t)]] := by
    rw [leaf, Pattern.matchTree, if_pos symbol, Pattern.matchBelow]
    rfl
  refine ⟨name, type, typed, (mem_captures visible).2 ⟨_, rule, t, mem, seen, [(name, t)], ?_, rfl, ?_⟩⟩
  · rw [found]
    exact List.mem_singleton_self _
  · exact List.mem_singleton_self _

theorem target_of_mem_captures {text : List Char} {root : Tree} {capture : Capture}
    (visible : root.isVisible = true) (mem : capture ∈ captures text root) :
    Pattern.Targets targets root capture := by
  obtain ⟨rule, hr, t, ht, seen, found, hf, -, hc⟩ := (mem_captures visible).1 mem
  obtain ⟨named, below, shown⟩ := Pattern.targets_matchTree rule.pattern t seen found hf capture hc
  exact ⟨List.mem_flatMap.2 ⟨rule, hr, named⟩, Tree.nodes_subset_nodes ht below, shown⟩

/-- What is captured is a visible token of the tree. -/
theorem token_of_mem_captures {text : List Char} {root : Tree} {capture : Capture}
    (visible : root.isVisible = true) (mem : capture ∈ captures text root) :
    capture.2 ∈ root.nodes ∧ capture.2.isVisible = true ∧
      ∃ kind, capture.2.symbol = .token kind ∧ kind ≠ .ending := by
  obtain ⟨named, below, shown⟩ := target_of_mem_captures visible mem
  exact ⟨below, shown, token_of_mem_targets _ named⟩

theorem name_of_mem_captures {text : List Char} {root : Tree} {capture : Capture}
    (visible : root.isVisible = true) (mem : capture ∈ captures text root) :
    capture.1 ∈ captureNames := by
  have all : ∀ target ∈ targets, target.1 ∈ captureNames := by decide
  exact all _ (target_of_mem_captures visible mem).1

end Highlight

end MettaSyntax
