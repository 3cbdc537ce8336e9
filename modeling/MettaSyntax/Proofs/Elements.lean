import MettaSyntax.Proofs.Shape
import MettaSyntax.Tree.Field

/-! # The elements of a list

Looking a child up by its field goes down the chain of hidden nodes that holds the arguments of a list,
however long it is.  It comes to the elements of the list: the head is the first of them, and the
first argument the second, whatever comments and errors stand in between. -/

set_option autoImplicit false

namespace MettaSyntax

namespace Tree

/-- The elements among the visible nodes that a row of trees shows. -/
def elements (row : List Tree) : List Tree :=
  (visibleRow row).filter isElement

theorem elements_nil : elements [] = [] := by
  rw [elements, visibleRow, List.filter_nil]

theorem elements_cons (t : Tree) (row : List Tree) :
    elements (t :: row) = t.seen.filter isElement ++ elements row := by
  rw [elements, visibleRow_cons, List.filter_append, elements]

theorem elements_append (xs ys : List Tree) : elements (xs ++ ys) = elements xs ++ elements ys := by
  rw [elements, visibleRow_append, List.filter_append]
  rfl

theorem elements_cons_element {t : Tree} (h : t.isElement = true) (row : List Tree) :
    elements (t :: row) = t :: elements row := by
  rw [elements_cons, seen, if_pos (isVisible_of_isElement h), List.filter_cons_of_pos h]
  rfl

theorem elements_cons_hidden {t : Tree} (h : t.isVisible = false) (row : List Tree) :
    elements (t :: row) = elements t.children ++ elements row := by
  rw [elements_cons, seen, if_neg (by simp [h]), visibleChildren_eq]
  rfl

theorem elements_cons_other {t : Tree} (visible : t.isVisible = true) (h : t.isElement = false)
    (row : List Tree) : elements (t :: row) = elements row := by
  rw [elements_cons, seen, if_pos visible, List.filter_cons_of_neg (by simp [h])]
  rfl

theorem elements_cons_token {t : Tree} {k : TokenKind} (h : t.symbol = .token k) (inside : k ≠ .ending)
    (row : List Tree) : elements (t :: row) = elements row := by
  apply elements_cons_other
  · rw [isVisible, h]
    cases k <;> first | rfl | exact absurd rfl inside
  · rw [isElement, h]
    rfl

theorem elements_extras {row : List Tree} (formed : ∀ t ∈ row, t.Formed)
    (extra : ∀ t ∈ row, t.isExtra = true) : elements row = [] := by
  induction row with
  | nil => exact elements_nil
  | cons t row ih =>
      obtain ⟨visible, plain, -⟩ :=
        (formed t List.mem_cons_self).aside (extra t List.mem_cons_self)
      rw [elements_cons_other visible plain]
      exact ih (fun u hu => formed u (List.mem_cons_of_mem _ hu)) fun u hu =>
        extra u (List.mem_cons_of_mem _ hu)

/-! ## One step of a search -/

section Search

variable {f : Field} {entries : List FieldEntry} {index child : Nat}

theorem childAt?_nil (row : List Tree) : childAt? f [] index row = none := by
  cases row <;> simp [childAt?]

theorem childAt?_extras_append {extras : List Tree} (extra : ∀ t ∈ extras, t.isExtra = true)
    (row : List Tree) : childAt? f entries index (extras ++ row) = childAt? f entries index row := by
  cases entries with
  | nil => rw [childAt?_nil, childAt?_nil]
  | cons e entries =>
      induction extras with
      | nil => rfl
      | cons t extras ih =>
          rw [List.cons_append, childAt?, if_pos (extra t List.mem_cons_self)]
          exact ih fun u hu => extra u (List.mem_cons_of_mem _ hu)

theorem childAt?_cons_of_lt {e : FieldEntry} {t : Tree} (counts : t.isExtra = false)
    (h : index < e.child) (row : List Tree) :
    childAt? f (e :: entries) index (t :: row) = childAt? f (e :: entries) (index + 1) row := by
  rw [childAt?, if_neg (by simp [counts]), if_pos h]

theorem childAt?_cons_own {t : Tree} (counts : t.isExtra = false) (visible : t.isVisible = true)
    (row : List Tree) : childAt? f (⟨f, index, false⟩ :: entries) index (t :: row) = some t := by
  rw [childAt?, if_neg (by simp [counts]), if_neg (Nat.lt_irrefl _), if_neg (by simp),
    if_pos visible]

theorem childAt?_cons_inherited {t : Tree} (counts : t.isExtra = false) (row : List Tree) :
    childAt? f (⟨f, index, true⟩ :: entries) index (t :: row) =
      (t.child? f).or (childAt? f entries (index + 1) row) := by
  rw [childAt?, if_neg (by simp [counts]), if_neg (Nat.lt_irrefl _), if_pos rfl]

end Search

/-! ## Fields of a list -/

/-- Extras before the first child that counts have no part in a search, and are no elements. -/
theorem exists_skip_extras {row : List Tree} (formed : ∀ t ∈ row, t.Formed) {x : Symbol}
    {xs : List Symbol} (h : counted row = x :: xs) :
    ∃ t after, t ∈ row ∧ (∀ u ∈ after, u ∈ row) ∧ t.isExtra = false ∧ t.symbol = x ∧
      counted after = xs ∧ elements row = elements (t :: after) ∧
      ∀ f entries index, childAt? f entries index row = childAt? f entries index (t :: after) := by
  obtain ⟨extras, t, after, rfl, extra, counts, symbol, tail⟩ := exists_of_counted_eq_cons h
  refine ⟨t, after, by simp, fun u hu => by simp [hu], counts, symbol, tail, ?_, ?_⟩
  · rw [elements_append, elements_extras (fun u hu => formed u (by simp [hu])) extra,
      List.nil_append]
  · exact fun f entries index => childAt?_extras_append extra _

theorem elements_closing {row : List Tree} (formed : ∀ t ∈ row, t.Formed)
    (h : counted row = [.token .closing]) : elements row = [] := by
  obtain ⟨c, after, -, sub, -, closes, none, shown, -⟩ := exists_skip_extras formed h
  rw [shown, elements_cons_token closes (by simp)]
  exact elements_extras (fun u hu => formed u (sub u hu)) (counted_eq_nil_iff.1 none)

/-- The first argument in a chain of arguments is its first element. -/
theorem Formed.child?_of_arguments {t : Tree} (h : t.Formed)
    (symbol : t.symbol = .nonterminal .arguments) :
    ∃ a more, elements t.children = a :: more ∧ t.child? .argument = some a := by
  induction h with
  | @leaf token missing inside miss => exact absurd symbol (Completion.symbol_leaf_ne token missing)
  | @node label span row p admits place parts formed ih =>
      cases label with
      | error whole => cases symbol
      | skipped => cases symbol
      | production q =>
          have result : q.result = .arguments := Symbol.nonterminal.inj symbol
          obtain ⟨spelt, -⟩ := admits
          rw [Tree.children, child?]
          cases q <;> cases result
          · obtain ⟨e, element, one⟩ := spells_first (.inr rfl) spelt
            obtain ⟨a, after, -, -, counts, isE, -, shown, search⟩ := exists_skip_extras formed one
            have isElement : a.isElement = true := by rw [Tree.isElement, isE, element]
            refine ⟨a, elements after, ?_, ?_⟩
            · rw [shown, elements_cons_element isElement]
            · rw [search]
              exact childAt?_cons_own counts (isVisible_of_isElement isElement) after
          · obtain ⟨e, element, both⟩ := spells_next (.inr ⟨rfl, rfl⟩) spelt
            obtain ⟨chain, after, mem, -, counts, isChain, -, shown, search⟩ :=
              exists_skip_extras formed both
            obtain ⟨a, more, first, found⟩ := ih chain mem isChain
            have hidden : chain.isVisible = false := by rw [isVisible, isChain]; rfl
            refine ⟨a, more ++ elements after, ?_, ?_⟩
            · rw [shown, elements_cons_hidden hidden, first, List.cons_append]
            · have way : childAt? .argument [⟨.argument, 0, true⟩, ⟨.argument, 1, false⟩] 0
                  (chain :: after) = some a := by
                rw [childAt?_cons_inherited counts, found, Option.some_or]
              rw [search]
              exact way

/-- The head of a list is its first element, and its first argument the second. -/
theorem Formed.child?_of_list {t : Tree} (h : t.Formed) (symbol : t.symbol = .nonterminal .list) :
    t.child? .head = (elements t.children)[0]? ∧
      t.child? .argument = (elements t.children)[1]? := by
  cases h with
  | @leaf token missing inside miss => exact absurd symbol (Completion.symbol_leaf_ne token missing)
  | @node label span row p admits place parts formed =>
      cases label with
      | error whole => cases symbol
      | skipped => cases symbol
      | production q =>
          have result : q.result = .list := Symbol.nonterminal.inj symbol
          obtain ⟨spelt, -⟩ := admits
          obtain ⟨xs, split, within⟩ := inside_of_spells result spelt
          obtain ⟨o, row', -, sub, counts, opens, tail, shown, search⟩ :=
            exists_skip_extras formed split
          have formed' : ∀ u ∈ row', u.Formed := fun u hu => formed u (sub u hu)
          -- the opening parenthesis is before every child that an entry points at
          have past (f : Field) (child : Nat) (inherited : Bool) :
              childAt? f [⟨f, child + 1, inherited⟩] 0 (o :: row') =
                childAt? f [⟨f, child + 1, inherited⟩] 1 row' :=
            childAt?_cons_of_lt counts (Nat.succ_pos child) row'
          rw [Tree.children, shown, elements_cons_token opens (by simp), child?, child?, search, search]
          cases q <;> cases result
          · have none : xs = [] := within
            rw [none] at tail
            rw [elements_closing formed' tail]
            exact ⟨childAt?_nil _, childAt?_nil _⟩
          · obtain ⟨e, element, rfl⟩ := within
            obtain ⟨t, after, -, sub', counts', isE, tail', shown', search'⟩ :=
              exists_skip_extras formed' tail
            have isElement : t.isElement = true := by rw [Tree.isElement, isE, element]
            rw [shown', elements_cons_element isElement,
              elements_closing (fun u hu => formed' u (sub' u hu)) tail']
            refine ⟨?_, childAt?_nil _⟩
            exact (past .head 0 false).trans ((search' _ _ _).trans
              (childAt?_cons_own counts' (isVisible_of_isElement isElement) after))
          · obtain ⟨e, element, rfl⟩ := within
            obtain ⟨t, after, -, sub', counts', isE, tail', shown', search'⟩ :=
              exists_skip_extras formed' tail
            have isElement : t.isElement = true := by rw [Tree.isElement, isE, element]
            obtain ⟨chain, after', mem, -, counts'', isChain, -, shown'', search''⟩ :=
              exists_skip_extras (fun u hu => formed' u (sub' u hu)) tail'
            obtain ⟨a, more, first, found⟩ :=
              (formed' chain (sub' chain mem)).child?_of_arguments isChain
            have hidden : chain.isVisible = false := by rw [isVisible, isChain]; rfl
            rw [shown', elements_cons_element isElement, shown'', elements_cons_hidden hidden, first]
            refine ⟨?_, ?_⟩
            · exact (past .head 0 false).trans ((search' _ _ _).trans
                (childAt?_cons_own counts' (isVisible_of_isElement isElement) after))
            · calc childAt? .argument [⟨.argument, 2, true⟩] 0 (o :: row')
                  = childAt? .argument [⟨.argument, 2, true⟩] 1 (t :: after) :=
                    (past .argument 1 true).trans (search' _ _ _)
                _ = childAt? .argument [⟨.argument, 2, true⟩] 2 (chain :: after') :=
                    (childAt?_cons_of_lt counts' (by decide) after).trans (search'' _ _ _)
                _ = some a := by rw [childAt?_cons_inherited counts'', found, Option.some_or]

end Tree

end MettaSyntax
