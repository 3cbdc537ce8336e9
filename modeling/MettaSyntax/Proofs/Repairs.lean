import MettaSyntax.Proofs.Mended

/-! # What a stack amounts to

The tokens that the trees of a stack keep, the diagnostics below them, and the cost of the errors in
them do not depend on the productions that have been completed, and neither does whether the trees
read on.  A file that is completed from the stack has all of them in common with it. -/

set_option autoImplicit false

namespace MettaSyntax

open Stack

/-- What is wrong with the visible nodes of a row of trees, and with those below them. -/
def Diagnostic.below (row : List Tree) : List Diagnostic :=
  ((Tree.nodesRow row).filter Tree.isVisible).filterMap of?

theorem Diagnostic.all_eq (t : Tree) : all t = (of? t).toList ++ below t.children := by
  have flat : all t = (t.preorder.map Cursor.tree).filterMap of? := by
    rw [all, List.filterMap_map]
    rfl
  rw [flat, Tree.map_tree_preorder, List.filterMap_cons, below]
  cases of? t <;> rfl

theorem Diagnostic.below_error (whole : Bool) (span : Span) (row : List Tree) :
    below [.node (.error whole) span row] = ⟨.syntaxError, span⟩ :: below row := by
  have shown : (Tree.node (.error whole) span row).isVisible = true := rfl
  rw [below, Tree.nodesRow, Tree.nodes, Tree.nodesRow, List.append_nil, List.filter_cons_of_pos shown]
  rfl

theorem Diagnostic.below_clean {row : List Tree} (clean : ∀ t ∈ row, t.Clean) : below row = [] := by
  apply List.filterMap_eq_nil_iff.2
  intro u hu
  obtain ⟨t, ht, within⟩ := Tree.mem_nodesRow.1 (List.mem_filter.1 hu).1
  exact (clean t ht).quiet u within

namespace Tree

theorem errorCosts_append (xs ys : List Tree) :
    errorCosts (xs ++ ys) = errorCosts xs + errorCosts ys := by
  induction xs with
  | nil => simp [errorCosts]
  | cons t xs ih => rw [List.cons_append, errorCosts, errorCosts, ih, Nat.add_assoc]

theorem skipCosts_append (xs ys : List Tree) : skipCosts (xs ++ ys) = skipCosts xs + skipCosts ys := by
  induction xs with
  | nil => simp [skipCosts]
  | cons t xs ih => rw [List.cons_append, skipCosts, skipCosts, ih, Nat.add_assoc]

end Tree

/-- A production reads on if its children do. -/
theorem mended_gathers : Gathers (· ∧ ·) fun row : List Tree => ∀ t ∈ row, t.Mended where
  append xs ys := propext List.forall_mem_append
  production p span row := by
    rw [List.forall_mem_singleton]
    exact propext ⟨Tree.Mended.children, .node⟩

theorem kept_gathers : Gathers (· ++ ·) Tree.keptRow where
  append := Tree.keptRow_append
  production p span row := by
    rw [Tree.keptRow_cons, Tree.kept_production, Tree.keptRow_nil, List.append_nil]

theorem errorCosts_gathers : Gathers (· + ·) Tree.errorCosts where
  append := Tree.errorCosts_append
  production p span row := by
    simp [Tree.errorCosts, Tree.errorCost, Tree.isSkipped, Label.isBroken]

theorem diagnostics_gathers : Gathers (· ++ ·) Diagnostic.below where
  append xs ys := by
    rw [Diagnostic.below, Diagnostic.below, Diagnostic.below, Tree.nodesRow_append, List.filter_append,
      List.filterMap_append]
  production p span row := by
    have own : Diagnostic.of? (.node (.production p) span row) = none := rfl
    rw [Diagnostic.below, Tree.nodesRow, Tree.nodes, Tree.nodesRow, List.append_nil]
    by_cases visible : (Tree.node (.production p) span row).isVisible = true
    · rw [List.filter_cons_of_pos visible, List.filterMap_cons, own]
      rfl
    · rw [List.filter_cons_of_neg visible]
      rfl

/-! ## Complete trees -/

namespace Tree

theorem skipCosts_extras {row : List Tree} (extra : ∀ t ∈ row, t.isExtra = true) :
    skipCosts row = 0 := by
  induction row with
  | nil => rfl
  | cons t row ih =>
      rw [skipCosts, skipCost, if_pos (by simp [extra t List.mem_cons_self]),
        ih fun u hu => extra u (List.mem_cons_of_mem _ hu)]

theorem errorCost_error (whole : Bool) (span : Span) (row : List Tree) :
    (node (.error whole) span row).errorCost =
      errorCosts row + (skipCosts row + Cost.recovery + Cost.stretch span) := by
  rw [Tree.errorCost, if_pos (by simp [Label.isBroken])]

theorem isExtra_of_isSkipped {t : Tree} (h : t.isSkipped = true) : t.isExtra = false := by
  match t, h with
  | .node .skipped _ _, _ => rfl

theorem errorCosts_skipped {t : Tree} (h : t.isSkipped = true) (row : List Tree) :
    errorCosts (t :: row) = errorCosts row := by
  rw [errorCosts, if_pos h, Nat.zero_add]

/-- An error that is a run of skipped tokens costs what it costs to skip the tokens and the stretch. -/
theorem errorCosts_error_run {run : Tree} (h : run.isSkipped = true) (span : Span) (row : List Tree) :
    errorCosts (.node (.error false) span [run] :: row) =
      run.skipCost + Cost.recovery + Cost.stretch span + errorCosts row := by
  have inside : errorCosts [run] = 0 := errorCosts_skipped h []
  rw [errorCosts, if_neg (by simp [isSkipped]), errorCost_error, inside, Nat.zero_add, skipCosts]
  rfl

mutual

theorem Clean.errorCost {t : Tree} (h : t.Clean) : t.errorCost = 0 := by
  match t, h with
  | _, .leaf _ => rfl
  | .node (.production p) span row, .node below =>
      rw [Tree.errorCost, errorCosts_clean below, if_neg (by simp [Label.isBroken])]

theorem errorCosts_clean {row : List Tree} (clean : ∀ t ∈ row, t.Clean) : errorCosts row = 0 := by
  match row with
  | [] => rfl
  | t :: row =>
      rw [errorCosts, (clean t List.mem_cons_self).errorCost,
        errorCosts_clean fun u hu => clean u (List.mem_cons_of_mem _ hu)]
      split <;> rfl

end

end Tree

namespace Completion

variable {ending : Token} {s : Stack} {row : List Tree} {t : Tree}

/-- A complete tree keeps what its stack keeps, and reads on if its stack does; it has the diagnostics
and the cost of its stack. -/
theorem whole?_amounts (held : s.Holds row) (he : ending.kind = .ending)
    (ht : whole? s ending = some t) :
    Tree.keptRow t.children = Tree.keptRow s.trees ++ [ending] ∧
      ((∀ u ∈ s.trees, u.Mended) → t.Mended) ∧
      Diagnostic.all t = Diagnostic.below s.trees ∧ t.errorCost = Tree.errorCosts s.trees := by
  have root : ∃ span row, t = .node (.production .file) span row := by
    obtain ⟨_, _, _, -, -, -, -, -, rfl⟩ := whole?_eq held he ht
    exact ⟨_, _, rfl⟩
  obtain ⟨kind, place⟩ := ending
  obtain rfl : kind = .ending := he
  have kept := kept_gathers.whole? held rfl ht
  have mended := mended_gathers.whole? held rfl ht
  have below := diagnostics_gathers.whole? held rfl ht
  have cost := errorCosts_gathers.whole? held rfl ht
  obtain ⟨span, children, rfl⟩ := root
  rw [Tree.children] at kept mended below cost ⊢
  refine ⟨?_, fun parts => .node (mended.mpr ?_), ?_, ?_⟩
  · rw [kept, Tree.keptRow_append]
    simp
  · intro u hu
    rcases List.mem_append.1 hu with hu | hu
    · exact parts u hu
    · exact List.mem_singleton.1 hu ▸ .leaf (by simp)
  · rw [Diagnostic.all_eq, Tree.children, below, diagnostics_gathers.append]
    exact List.append_nil _
  · have own := errorCosts_gathers.production .file span children
    rw [Tree.errorCosts, Tree.errorCosts, if_neg (by simp [Tree.isSkipped]), Nat.add_zero] at own
    rw [own, cost, Tree.errorCosts_append]
    rfl

/-- A whole text that counts as an error costs at least what it costs to skip its parts and its
stretch. -/
theorem le_broken_errorCost (row : List Tree) (ending : Token) :
    Cost.recovery + Tree.skipCosts row + Cost.stretch (broken row ending).span ≤
      (broken row ending).errorCost := by
  rw [broken, Tree.ofChildren, Tree.errorCost_error, Tree.skipCosts_append, Tree.span]
  omega

end Completion

namespace Stack

/-- An error takes over an error below it, and leaves the extras at its end outside. -/
theorem trees_pushError {more : List Tree} (counts : ∃ t ∈ more, t.isExtra = false) (s : Stack) :
    (s.pushError more).trees = s.takeError.2.trees ++
      (.ofChildren (.error false) s.takeError.2.position (Tree.splitTrailing (s.takeError.1 ++ more)).1 ::
        (Tree.splitTrailing (s.takeError.1 ++ more)).2) := by
  obtain ⟨t, mem, inside⟩ := counts
  have nonempty : (Tree.splitTrailing (s.takeError.1 ++ more)).1 ≠ [] :=
    Tree.splitTrailing_ne_nil (List.mem_append_right _ mem) inside
  rw [pushError]
  simp only [List.isEmpty_iff, if_neg nonempty, trees_pushAll]
  rfl

/-- A run of skipped tokens becomes an error of its own, unless there is an error below it. -/
theorem trees_pushError_run {s : Stack} (top : s.takeError = ([], s)) {run : Tree}
    (skipped : run.isSkipped = true) {extras : List Tree} (extra : ∀ t ∈ extras, t.isExtra = true) :
    (s.pushError (run :: extras)).trees =
      s.trees ++ .node (.error false) run.span [run] :: extras := by
  have counts := Tree.isExtra_of_isSkipped skipped
  have split : Tree.splitTrailing (run :: extras) = ([run], extras) :=
    Tree.splitTrailing_counted counts [] extra
  rw [trees_pushError ⟨run, List.mem_cons_self, counts⟩, top, List.nil_append, split]
  rfl

/-- What is given up costs at least what it costs to skip it. -/
theorem le_pushError_errorCosts {more : List Tree} (counts : ∃ t ∈ more, t.isExtra = false)
    (s : Stack) : Cost.recovery + Tree.skipCosts more ≤ Tree.errorCosts (s.pushError more).trees := by
  have split := congrArg Tree.skipCosts (Tree.splitTrailing_append (s.takeError.1 ++ more))
  rw [Tree.skipCosts_append, Tree.skipCosts_append,
    Tree.skipCosts_extras (Tree.splitTrailing_extra _)] at split
  rw [trees_pushError counts, Tree.errorCosts_append, Tree.errorCosts, Tree.ofChildren,
    Tree.errorCost_error, if_neg (by simp [Tree.isSkipped])]
  omega

end Stack

/-- What has been read without errors is kept. -/
theorem Stack.Reads.kept {s : Stack} {ts : List Token} {d : Nat} (h : s.Reads ts d) :
    Tree.keptRow s.trees = ts := by
  have same := kept_gathers.grows h.grows
  rwa [trees_nil, List.nil_append, Tree.keptRow_ofToken] at same

end MettaSyntax
