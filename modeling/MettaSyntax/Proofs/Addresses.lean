import Mathlib.Logic.Function.Iterate
import MettaSyntax.Outline.Definition
import MettaSyntax.Outline.Diagnostic
import MettaSyntax.Proofs.Lossless

/-! # The walk through a tree visits every visible node once

The address of a node is the way down to it, child by child, hidden nodes included.  The
lexicographic order of addresses puts a node before those below it, and what is below a child before
what is below a later one.  `Tree.spread` lists all nodes of a tree with their addresses, and the
cursors of `Tree.preorder` stand on the visible ones among them.  `Cursor.Tour` makes one move at a
time: down to a first child, on to a next sibling, or up to the parent.  No move changes what will
have been visited at the end, and each leaves fewer moves to be made. -/

set_option autoImplicit false

namespace MettaSyntax

namespace Tree

/-- The node at an address. -/
def at? : Tree → List Nat → Option Tree
  | t, [] => some t
  | t, i :: path => t.children[i]?.bind (at? · path)

/-- The addresses are those of the nodes of a tree with a property, each once, in the order of the
tree. -/
structure Enumerates (t : Tree) (p : Tree → Bool) (addresses : List (List Nat)) : Prop where
  ascend : addresses.Pairwise (· < ·)
  mem_iff : ∀ a, a ∈ addresses ↔ ∃ u, t.at? a = some u ∧ p u = true

mutual

/-- Every node of a tree with its address, each before those below it. -/
def spread : Tree → List (List Nat × Tree)
  | .leaf token missing => [([], .leaf token missing)]
  | .node label span children => ([], .node label span children) :: spreadRow 0 children

/-- Every node of a row of siblings, the first of which is the child with the given number. -/
def spreadRow (n : Nat) : List Tree → List (List Nat × Tree)
  | [] => []
  | t :: row => (spread t).map (fun (a, u) => (n :: a, u)) ++ spreadRow (n + 1) row

end

theorem spread_eq (t : Tree) : t.spread = ([], t) :: spreadRow 0 t.children := by
  cases t with
  | leaf token missing => simp [spread, children, spreadRow]
  | node label span children => simp [spread, Tree.children]

mutual

theorem mem_spread {t u : Tree} {a : List Nat} : (a, u) ∈ t.spread ↔ t.at? a = some u := by
  match t with
  | .leaf token missing =>
      rw [spread, List.mem_singleton]
      cases a with
      | nil => simp [at?, eq_comm]
      | cons i path => simp [at?, children]
  | .node label span children =>
      rw [spread, List.mem_cons, mem_spreadRow]
      cases a with
      | nil => simp [at?, eq_comm]
      | cons i path => simp [at?, Tree.children]

theorem mem_spreadRow {n : Nat} {row : List Tree} {u : Tree} {a : List Nat} :
    (a, u) ∈ spreadRow n row ↔
      ∃ i path, a = (n + i) :: path ∧ row[i]?.bind (at? · path) = some u := by
  match row with
  | [] => simp [spreadRow]
  | t :: row =>
      rw [spreadRow, List.mem_append, List.mem_map, mem_spreadRow]
      constructor
      · intro found
        rcases found with ⟨⟨path, v⟩, here, same⟩ | ⟨i, path, same, found⟩
        · obtain ⟨rfl, rfl⟩ := Prod.mk.inj same
          exact ⟨0, path, rfl, by simpa using mem_spread.1 here⟩
        · exact ⟨i + 1, path, by rw [same, Nat.add_right_comm, Nat.add_assoc], by simpa using found⟩
      · intro found
        obtain ⟨i, path, rfl, found⟩ := found
        cases i with
        | zero => exact .inl ⟨(path, u), mem_spread.2 (by simpa using found), rfl⟩
        | succ i => exact .inr ⟨i, path, by rw [Nat.add_right_comm, Nat.add_assoc], by simpa using found⟩

end

mutual

theorem spread_ascend (t : Tree) : t.spread.Pairwise fun x y => x.1 < y.1 := by
  match t with
  | .leaf token missing =>
      rw [spread]
      exact List.pairwise_singleton _ _
  | .node label span children =>
      rw [spread, List.pairwise_cons]
      refine ⟨?_, spreadRow_ascend 0 children⟩
      intro x hx
      obtain ⟨i, path, address, -⟩ := mem_spreadRow.1 hx
      rw [address]
      exact List.nil_lt_cons _ _

theorem spreadRow_ascend (n : Nat) (row : List Tree) :
    (spreadRow n row).Pairwise fun x y => x.1 < y.1 := by
  match row with
  | [] =>
      rw [spreadRow]
      exact .nil
  | t :: row =>
      rw [spreadRow, List.pairwise_append]
      refine ⟨?_, spreadRow_ascend (n + 1) row, ?_⟩
      · apply (spread_ascend t).map
        intro x y less
        exact List.cons_lt_cons_iff.2 (.inr ⟨rfl, less⟩)
      · intro x hx y hy
        obtain ⟨z, -, rfl⟩ := List.mem_map.1 hx
        obtain ⟨i, path, address, -⟩ := mem_spreadRow.1 hy
        rw [address]
        exact List.cons_lt_cons_iff.2 (.inl (by omega))

end

/-- The nodes with a property among all nodes of a tree are at the addresses of these. -/
theorem enumerates_spread (t : Tree) (p : Tree → Bool) :
    t.Enumerates p ((t.spread.filter (p ·.2)).map Prod.fst) where
  ascend := ((spread_ascend t).filter _).map _ fun _ _ less => less
  mem_iff a := by
    rw [List.mem_map]
    constructor
    · intro found
      obtain ⟨⟨b, u⟩, hx, rfl⟩ := found
      obtain ⟨mem, holds⟩ := List.mem_filter.1 hx
      exact ⟨u, mem_spread.1 mem, holds⟩
    · intro found
      obtain ⟨u, node, holds⟩ := found
      exact ⟨(a, u), List.mem_filter.2 ⟨mem_spread.2 node, holds⟩, rfl⟩

end Tree

/-! ## Where a cursor stands -/

namespace Cursor

/-- The number of a child is told by the number of siblings after it. -/
def addressOf : Place → List Place → List Nat
  | _, [] => []
  | here, up :: above =>
      addressOf up above ++ [up.tree.children.length - (here.after.length + 1)]

/-- The way from the root to the node of a cursor. -/
def address (c : Cursor) : List Nat :=
  addressOf c.here c.above

/-- The cursor's node with its address. -/
def located (c : Cursor) : List Nat × Tree :=
  (c.address, c.tree)

theorem addressOf_cons {here up : Place} {before : List Tree}
    (split : up.tree.children = before ++ here.tree :: here.after) (above : List Place) :
    addressOf here (up :: above) = addressOf up above ++ [before.length] := by
  have number : up.tree.children.length - (here.after.length + 1) = before.length := by
    rw [split, List.length_append, List.length_cons, Nat.add_sub_cancel]
  rw [addressOf, number]

/-- The cursors below a node stand on its visible nodes, at addresses that begin with its own. -/
theorem map_located_below {places : List Place} {row before : List Tree} (index : Nat) {up : Place}
    {above : List Place} (h : places = up :: above) (split : up.tree.children = before ++ row) :
    (below places row index).map located =
      ((Tree.spreadRow before.length row).filter (·.2.isVisible)).map
        fun (a, u) => (addressOf up above ++ a, u) := by
  fun_induction below places row index generalizing up above before with
  | case1 => simp [Tree.spreadRow]
  | case2 places t row index place ihBelow =>
      rename_i ihLater
      have here : addressOf place places = addressOf up above ++ [before.length] := by
        rw [h]
        exact addressOf_cons split above
      have next : up.tree.children = before ++ [t] ++ row := by simp [split]
      have inner := ihBelow rfl (List.nil_append t.children).symm
      have later := ihLater h next
      have deeper (found : List (List Nat × Tree)) :
          (((found.map fun (a, u) => (before.length :: a, u)).filter (·.2.isVisible)).map
              fun (a, u) => (addressOf up above ++ a, u)) =
            (found.filter (·.2.isVisible)).map fun (a, u) => (addressOf place places ++ a, u) := by
        rw [here, List.filter_map, List.map_map]
        simp [Function.comp_def]
      rw [List.map_append, List.map_append, inner, later, Tree.spreadRow, List.filter_append,
        List.map_append, List.length_append, List.length_singleton, deeper, Tree.spread_eq]
      by_cases visible : t.isVisible
      · simp [visible, located, address, Cursor.tree, place]
      · simp [visible]

end Cursor

namespace Tree

mutual

theorem map_snd_spread (t : Tree) : t.spread.map Prod.snd = t.nodes := by
  match t with
  | .leaf token missing => simp [spread, nodes]
  | .node label span children => simp [spread, nodes, map_snd_spreadRow]

theorem map_snd_spreadRow (n : Nat) (row : List Tree) :
    (spreadRow n row).map Prod.snd = nodesRow row := by
  match row with
  | [] => simp [spreadRow, nodesRow]
  | t :: row =>
      have inner := map_snd_spread t
      have later := map_snd_spreadRow (n + 1) row
      simp [spreadRow, nodesRow, Function.comp_def, ← inner, later]

end

variable {t : Tree}

/-- The walk comes to the visible nodes in the order of their addresses. -/
theorem map_located_preorder (visible : t.isVisible = true) :
    t.preorder.map Cursor.located = t.spread.filter (·.2.isVisible) := by
  have start : (Cursor.root t).located = ([], t) := rfl
  have top : [(Cursor.root t).here] = (Cursor.root t).here :: (Cursor.root t).above := rfl
  have all : (Cursor.root t).here.tree.children = [] ++ t.children := rfl
  have below := Cursor.map_located_below 0 top all
  rw [preorder_eq, List.map_cons, below, start, spread_eq]
  simp [visible, Cursor.root, Cursor.addressOf]

theorem at?_address (visible : t.isVisible = true) {c : Cursor} (hc : c ∈ t.preorder) :
    t.at? c.address = some c.tree := by
  have mem : c.located ∈ t.preorder.map Cursor.located := List.mem_map_of_mem hc
  rw [map_located_preorder visible] at mem
  exact mem_spread.1 (List.mem_filter.1 mem).1

/-- The walk comes to every visible node once. -/
theorem enumerates_visible (visible : t.isVisible = true) :
    t.Enumerates isVisible (t.preorder.map Cursor.address) := by
  have all := enumerates_spread t isVisible
  rw [← map_located_preorder visible, List.map_map] at all
  exact all

/-- If no hidden node has a property, the walk comes to each node with it once. -/
theorem enumerates_preorder (visible : t.isVisible = true) {p : Tree → Bool}
    (shows : ∀ u ∈ t.nodes, p u = true → u.isVisible = true) :
    t.Enumerates p ((t.preorder.filter (p ·.tree)).map Cursor.address) := by
  have seen : t.spread.filter (p ·.2) = (t.spread.filter (·.2.isVisible)).filter (p ·.2) := by
    rw [List.filter_filter]
    apply List.filter_congr
    intro x hx
    have node : x.2 ∈ t.nodes := map_snd_spread t ▸ List.mem_map_of_mem hx
    cases holds : p x.2 with
    | false => simp
    | true => simp [shows x.2 node holds]
  have all := enumerates_spread t p
  rw [seen, ← map_located_preorder visible, List.filter_map, List.map_map] at all
  exact all

/-- What is read off the nodes that the walk comes to can be read off their addresses. -/
theorem map_at?_preorder {β : Type} (visible : t.isVisible = true) (p : Tree → Bool)
    (f : Tree → Option β) :
    ((t.preorder.filter (p ·.tree)).map Cursor.address).map (fun a => (t.at? a).bind f) =
      (t.preorder.filter (p ·.tree)).map fun c => f c.tree := by
  rw [List.map_map]
  apply List.map_congr_left
  intro c hc
  rw [Function.comp_apply, at?_address visible (List.mem_filter.1 hc).1, Option.bind_some]

end Tree

/-! ## One move at a time -/

namespace Cursor

/-- A walk through a tree, with the nodes that were visited so far. -/
inductive Tour where
  /-- The cursor has come to a node that is to be visited. -/
  | arrived (visited : List Cursor) (c : Cursor)
  /-- The node and all below it were visited. -/
  | leaving (visited : List Cursor) (c : Cursor)
  | ended (visited : List Cursor)

namespace Tour

def step : Tour → Tour
  | arrived visited c =>
      match c.firstChild? with
      | some d => arrived (visited ++ [c]) d
      | none => leaving (visited ++ [c]) c
  | leaving visited c =>
      match c.nextSibling? with
      | some d => arrived visited d
      | none =>
          match c.parent? with
          | some up => leaving visited up
          | none => ended visited
  | ended visited => ended visited

/-- What will have been visited at the end. -/
def outcome : Tour → List Cursor
  | arrived visited c => visited ++ c :: c.rest
  | leaving visited c => visited ++ later (c.here :: c.above)
  | ended visited => visited

/-- A bound on the moves that are left: two for every node that is still to come, and one for every
node above. -/
def budget : Tour → Nat
  | arrived _ c => 2 * (c.work + 1) + c.above.length
  | leaving _ c => 2 * pending (c.here :: c.above) + c.above.length + 1
  | ended _ => 0

theorem step_outcome (a : Tour) : a.step.outcome = a.outcome := by
  cases a with
  | arrived visited c =>
      rw [step]
      cases child : c.firstChild? with
      | some d =>
          have rest : c.rest = d :: d.rest := enter?_some child
          simp [outcome, rest]
      | none =>
          have childless : below (c.here :: c.above) c.tree.children 0 = [] := enter?_none child
          simp [outcome, rest, childless]
  | leaving visited c =>
      rw [step]
      cases sibling : c.nextSibling? with
      | some d => simp [outcome, following?_some sibling]
      | none =>
          have after := following?_none sibling
          cases parent : c.parent? with
          | some up =>
              have parent : nearest? c.above = some up := parent
              simp [outcome, after, parent]
          | none =>
              have parent : nearest? c.above = none := parent
              simp [outcome, after, parent]
  | ended visited => rfl

end Tour

theorem enter?_budget {above : List Place} {row : List Tree} {index : Nat} {c : Cursor}
    (h : enter? above row index = some c) :
    2 * (c.work + 1) + c.above.length ≤ 2 * (Tree.sizes row + pending above) + above.length := by
  fun_induction enter? above row index with
  | case1 => cases h
  | case2 above t row index place visible =>
      cases h
      simp [work, tree, place, Tree.size_eq]
      omega
  | case3 above t row index place hidden d found ih =>
      cases h
      have inner := ih found
      simp [place, Tree.size_eq] at inner ⊢
      omega
  | case4 above t row index place hidden none ihBelow ihLater =>
      have later := ihLater h
      simp [Tree.size_eq]
      omega

theorem following?_budget {here : Place} {above : List Place} {c : Cursor}
    (h : following? here above = some c) :
    2 * (c.work + 1) + c.above.length ≤ 2 * pending (here :: above) + above.length := by
  fun_induction following? here above with
  | case1 here => exact enter?_budget h
  | case2 here up above d found =>
      cases h
      exact enter?_budget found
  | case3 here up above none visible => cases h
  | case4 here up above none hidden ih =>
      have outer := ih h
      simp at outer ⊢
      omega

namespace Tour

/-- Every move leaves fewer moves to be made. -/
theorem step_budget {a : Tour} (h : a.budget ≠ 0) : a.step.budget < a.budget := by
  cases a with
  | arrived visited c =>
      rw [step]
      cases child : c.firstChild? with
      | some d =>
          have inner := enter?_budget child
          simp [budget, work, tree] at inner ⊢
          omega
      | none =>
          simp [budget, work]
          omega
  | leaving visited c =>
      rw [step]
      cases sibling : c.nextSibling? with
      | some d => exact Nat.lt_succ_of_le (following?_budget sibling)
      | none =>
          cases parent : c.parent? with
          | some up =>
              have less := nearest?_pending parent
              have higher := nearest?_above_length parent
              simp [budget] at less ⊢
              omega
          | none => exact Nat.succ_pos _
  | ended visited => exact absurd rfl h

theorem eq_ended {a : Tour} (h : a.budget = 0) : a = ended a.outcome := by
  cases a with
  | arrived visited c => simp [budget] at h
  | leaving visited c => simp [budget] at h
  | ended visited => rfl

theorem run_ends (n : Nat) {a : Tour} (h : a.budget ≤ n) : step^[n] a = ended a.outcome := by
  induction n generalizing a with
  | zero => exact eq_ended (Nat.le_zero.1 h)
  | succ n ih =>
      by_cases spent : a.budget = 0
      · rw [eq_ended spent]
        exact Function.iterate_fixed rfl (n + 1)
      · rw [Function.iterate_succ_apply, ← step_outcome a]
        exact ih (Nat.le_of_lt_succ (Nat.lt_of_lt_of_le (step_budget spent) h))

end Tour

end Cursor

/-- The walk through a tree, one move at a time, comes to an end and has then visited what the tree
lists. -/
theorem Tree.tour_ends (t : Tree) :
    Cursor.Tour.step^[2 * t.size] (.arrived [] (Cursor.root t)) = .ended t.preorder := by
  have budget : (Cursor.Tour.arrived [] (Cursor.root t)).budget ≤ 2 * t.size := by
    simp [Cursor.Tour.budget, Cursor.root, Cursor.work, Cursor.tree, Cursor.pending,
      size_eq t]
  rw [Cursor.Tour.run_ends _ budget, Cursor.Tour.outcome, preorder, Cursor.visits_eq,
    List.nil_append]

/-! ## What is read off on the way -/

theorem Diagnostic.isSome_of? (t : Tree) :
    (Diagnostic.of? t).isSome = (t.isError || t.isMissing) := by
  rw [of?]
  cases t.isError <;> cases t.isMissing <;> rfl

theorem Diagnostic.map_some_all (t : Tree) :
    (Diagnostic.all t).map some =
      (t.preorder.filter fun c => c.tree.isError || c.tree.isMissing).map fun c => of? c.tree := by
  have faulty : (fun c : Cursor => c.tree.isError || c.tree.isMissing) =
      fun c => (of? c.tree).isSome := by
    funext c
    rw [isSome_of?]
  rw [all, List.map_filterMap_some_eq_filter_map_isSome, List.filter_map, faulty]
  rfl

theorem Definition.all_of_preorder (text : List Char) (t : Tree) :
    Definition.all text t =
      ((t.preorder.filter (·.tree.isNonterminal .list)).map fun c =>
        ofList? text t c.tree).reduceOption := by
  have flat (found : List (Option Definition)) : found.reduceOption = found.filterMap id := rfl
  rw [all, flat, List.filterMap_map, List.filterMap_filter]
  rfl

/-- For every text, the walk through its tree, which goes down to a first child, on to a next sibling,
or else up to the parent, ends after at most two moves for each node.  It has then visited the visible
nodes, each once: the root first, every node before those below it, and what is below a node before
its later siblings.  So every error and every missing token is reported once, and every list is
looked at once for a definition. -/
theorem preorder_once (text : List Char) :
    let t := parse text
    Cursor.Tour.step^[2 * t.size] (.arrived [] (Cursor.root t)) = .ended t.preorder ∧
      t.preorder.head? = some (Cursor.root t) ∧
      (∀ c ∈ t.preorder, t.at? c.address = some c.tree) ∧
      t.Enumerates Tree.isVisible (t.preorder.map Cursor.address) ∧
      (∃ faults, t.Enumerates (fun u => u.isError || u.isMissing) faults ∧
        (Diagnostic.all t).map some = faults.map fun a => (t.at? a).bind Diagnostic.of?) ∧
      ∃ lists, t.Enumerates (Tree.isNonterminal .list) lists ∧
        Definition.all text t =
          (lists.map fun a => (t.at? a).bind (Definition.ofList? text t)).reduceOption := by
  intro t
  obtain ⟨n, whole⟩ := parse_repaired text
  have visible : t.isVisible = true := whole.isVisible
  refine ⟨t.tour_ends, ?_, fun c hc => Tree.at?_address visible hc,
    Tree.enumerates_visible visible, ?_, ?_⟩
  · rw [Tree.preorder_eq]
    rfl
  · have shows : ∀ u ∈ t.nodes, (u.isError || u.isMissing) = true → u.isVisible = true := by
      intro u hu fault
      rcases Bool.or_eq_true_iff.1 fault with error | missing
      · exact Tree.isVisible_of_isError error
      · exact whole.isVisible_of_isMissing hu missing
    refine ⟨_, Tree.enumerates_preorder visible shows, ?_⟩
    rw [Diagnostic.map_some_all]
    exact (Tree.map_at?_preorder visible (fun u => u.isError || u.isMissing) Diagnostic.of?).symm
  · have shows : ∀ u ∈ t.nodes, u.isNonterminal .list = true → u.isVisible = true := by
      intro u _ list
      exact Tree.isVisible_of_isList list
    refine ⟨_, Tree.enumerates_preorder visible shows, ?_⟩
    rw [Tree.map_at?_preorder visible, Definition.all_of_preorder]

end MettaSyntax
