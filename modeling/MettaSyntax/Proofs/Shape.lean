import MettaSyntax.Proofs.Children
import MettaSyntax.Proofs.Forest
import MettaSyntax.Proofs.Lossless

/-! # Every tree has the shape of the grammar

Errors change what a tree holds but not its shape: an atom is one token, a list has its parentheses at
its ends with its elements between them, the first of which is its head and the later ones its
arguments, and a file has elements.  Comments and errors may stand between elements, and nothing else
may.  The hidden chains of a well-formed tree, and with them its visible nodes, show this by
induction on the tree. -/

set_option autoImplicit false

namespace MettaSyntax

namespace Tree

def isElement (t : Tree) : Bool :=
  Production.isElement t.symbol

/-- What may stand between the elements of a list or file. -/
def isAside (t : Tree) : Bool :=
  t.symbol = .token .comment || t.isError

/-- In a row of labelled nodes the first element has one field and the later ones another, and
whatever else stands there has none and may stand anywhere. -/
def Follows (first later : Option Field) : List Labelled → Prop
  | [] => True
  | (field, t) :: row =>
      if t.isElement then field = first ∧ Follows later later row
      else field = none ∧ t.isAside = true ∧ Follows first later row

/-- The fields of the elements in a row, in order. -/
def elementFields (row : List Labelled) : List (Option Field) :=
  (row.filter (·.2.isElement)).map Prod.fst

/-- The shape that the grammar gives to what stands just below a node. -/
structure WellShaped (t : Tree) (below : List Labelled) : Prop where
  /-- An atom is one token in its place. -/
  atom : t.symbol = .nonterminal .atom → ∃ kind leaf,
    below = [(none, leaf)] ∧ leaf.symbol = .token (.atom kind) ∧ leaf.isMissing = false ∧
      leaf.children = [] ∧ leaf.span = t.span
  /-- A list has parentheses at its ends, of which only the closing one may be missing; its first
  element is its head, and the later ones are its arguments. -/
  list : t.symbol = .nonterminal .list → ∃ opening inner closing,
    below = (none, opening) :: (inner ++ [(none, closing)]) ∧
      opening.symbol = .token .opening ∧ opening.isMissing = false ∧
      closing.symbol = .token .closing ∧
      (∀ d ∈ inner, d.2.isElement = true ∨ d.1 = none ∧ d.2.isAside = true) ∧
      (elementFields inner = [] ∨
        ∃ n, elementFields inner = some .head :: List.replicate n (some .argument))
  /-- A file has elements, without fields. -/
  file : t.symbol = .nonterminal .sourceFile → ∀ d ∈ below,
    d.1 = none ∧ (d.2.isElement = true ∨ d.2.isAside = true)

/-! ## Rows of labelled nodes -/

section Labels

variable {first later : Option Field}

theorem follows_append {xs ys : List Labelled} (hx : Follows first first xs)
    (hy : Follows first first ys) : Follows first first (xs ++ ys) := by
  induction xs with
  | nil => exact hy
  | cons d xs ih =>
      obtain ⟨field, t⟩ := d
      rw [List.cons_append, Follows]
      rw [Follows] at hx
      split
      · next element =>
          rw [if_pos element] at hx
          exact ⟨hx.1, ih hx.2⟩
      · next element =>
          rw [if_neg element] at hx
          exact ⟨hx.1, hx.2.1, ih hx.2.2⟩

theorem Follows.mem {row : List Labelled} (h : Follows first later row) :
    ∀ d ∈ row, d.2.isElement = true ∧ (d.1 = first ∨ d.1 = later) ∨
      d.1 = none ∧ d.2.isAside = true := by
  induction row generalizing first with
  | nil => simp
  | cons d row ih =>
      obtain ⟨field, t⟩ := d
      rw [Follows] at h
      intro e he
      split at h
      · next element =>
          rcases List.mem_cons.1 he with rfl | he
          · exact .inl ⟨element, .inl h.1⟩
          · exact (ih h.2 e he).imp_left fun ⟨elem, field⟩ => ⟨elem, .inr (field.elim id id)⟩
      · rcases List.mem_cons.1 he with rfl | he
        · exact .inr ⟨h.1, h.2.1⟩
        · exact ih h.2.2 e he

theorem elementFields_cons (field : Option Field) (t : Tree) (row : List Labelled) :
    elementFields ((field, t) :: row) =
      if t.isElement then field :: elementFields row else elementFields row := by
  unfold elementFields
  by_cases element : t.isElement = true <;> simp [element]

theorem Follows.fields {row : List Labelled} (h : Follows first later row) :
    elementFields row = [] ∨ ∃ n, elementFields row = first :: List.replicate n later := by
  induction row generalizing first with
  | nil => exact .inl rfl
  | cons d row ih =>
      obtain ⟨field, t⟩ := d
      rw [Follows] at h
      split at h
      · next element =>
          obtain ⟨rfl, rest⟩ := h
          rw [elementFields_cons, if_pos element]
          rcases ih rest with none | ⟨n, some⟩
          · exact .inr ⟨0, by rw [none]; rfl⟩
          · exact .inr ⟨n + 1, by rw [some, List.replicate_succ]⟩
      · next element =>
          rw [elementFields_cons, if_neg element]
          exact ih h.2.2

end Labels

/-! ## Rows of trees -/

theorem isVisible_of_isElement {t : Tree} (h : t.isElement = true) : t.isVisible = true := by
  unfold isElement Production.isElement at h
  unfold isVisible
  split at h
  · next list => rw [list]; rfl
  · next atom => rw [atom]; rfl
  · cases h

/-- An extra within a tree is a comment or an error, and is shown. -/
theorem Formed.aside {t : Tree} (h : Formed t) (extra : t.isExtra = true) :
    t.isVisible = true ∧ t.isElement = false ∧ t.isAside = true := by
  cases h with
  | @leaf token missing inside miss =>
      have comment : token.kind = .comment := by
        simp only [isExtra, Bool.or_eq_true, decide_eq_true_eq] at extra
        exact extra.resolve_right inside
      have symbol : (Tree.leaf token missing).symbol = .token .comment := by
        rw [Tree.symbol, comment]
        rfl
      simp [isVisible, isElement, isAside, symbol, Production.isElement, Symbol.visible]
  | @node label span row p admits place parts formed =>
      cases label with
      | production q => cases extra
      | error whole => exact ⟨rfl, rfl, rfl⟩
      | skipped => cases extra

/-- Only a closing parenthesis may be missing. -/
theorem Formed.token {t : Tree} (h : Formed t) {k : TokenKind} (symbol : t.symbol = .token k)
    (hk : k ≠ .closing) : t.isMissing = false ∧ t.children = [] := by
  cases h with
  | @leaf token missing inside miss =>
      obtain rfl : token.kind = k := eq_of_toSymbol symbol
      refine ⟨?_, rfl⟩
      cases missing with
      | false => rfl
      | true => exact absurd (miss rfl).1 hk
  | @node label span row p admits place parts formed => cases label <;> cases symbol

section Rows

variable {entries : List FieldEntry} {index : Nat} {first later : Option Field} {row : List Tree}
  (formed : ∀ t ∈ row, t.Formed)
include formed

theorem follows_extras_append (extra : ∀ t ∈ row, t.isExtra = true) {rest : List Labelled}
    (h : Follows first later rest) :
    Follows first later (labelledRow entries none index row ++ rest) := by
  induction row with
  | nil => simpa using h
  | cons t row ih =>
      have tail := ih (fun u hu => formed u (List.mem_cons_of_mem _ hu)) fun u hu =>
        extra u (List.mem_cons_of_mem _ hu)
      obtain ⟨visible, plain, aside⟩ :=
        (formed t List.mem_cons_self).aside (extra t List.mem_cons_self)
      rw [labelledRow_cons_extra (extra t List.mem_cons_self), labelled_eq, if_pos visible,
        List.append_assoc, List.singleton_append, Follows, if_neg (by simp [plain])]
      exact ⟨rfl, aside, tail⟩

theorem follows_extras (h : counted row = []) :
    Follows first later (labelledRow entries none index row) := by
  have none : Follows first later [] := trivial
  have all : Follows first later (labelledRow entries .none index row ++ []) :=
    follows_extras_append formed (counted_eq_nil_iff.1 h) none
  rwa [List.append_nil] at all

theorem follows_element {x : Symbol} {xs : List Symbol} (h : counted row = x :: xs)
    (element : Production.isElement x = true) (own : FieldEntry.own? entries index = first)
    (rest : ∀ after, (∀ t ∈ after, t ∈ row) → counted after = xs →
      Follows later later (labelledRow entries none (index + 1) after)) :
    Follows first later (labelledRow entries none index row) := by
  obtain ⟨extras, t, after, rfl, allExtra, counts, symbol, tail⟩ := exists_of_counted_eq_cons h
  have isElement : t.isElement = true := by rw [Tree.isElement, symbol, element]
  have later' := rest after (fun u hu => by simp [hu]) tail
  rw [labelledRow_append, counted_eq_nil_iff.2 allExtra]
  apply follows_extras_append (fun u hu => formed u (by simp [hu])) allExtra
  rw [List.length_nil, Nat.add_zero, labelledRow_cons counts, labelled_eq,
    if_pos (isVisible_of_isElement isElement), own, Option.or_none, List.singleton_append, Follows,
    if_pos isElement]
  exact ⟨rfl, later'⟩

theorem follows_chain {x : Symbol} {xs : List Symbol} (h : counted row = x :: xs)
    (chain : ∀ t ∈ row, t.symbol = x → Follows first first (t.labelled none))
    (own : FieldEntry.own? entries index = none)
    (rest : ∀ after, (∀ t ∈ after, t ∈ row) → counted after = xs →
      Follows first first (labelledRow entries none (index + 1) after)) :
    Follows first first (labelledRow entries none index row) := by
  obtain ⟨extras, t, after, rfl, allExtra, counts, symbol, tail⟩ := exists_of_counted_eq_cons h
  have inner := chain t (by simp) symbol
  have later' := rest after (fun u hu => by simp [hu]) tail
  rw [labelledRow_append, counted_eq_nil_iff.2 allExtra]
  apply follows_extras_append (fun u hu => formed u (by simp [hu])) allExtra
  rw [List.length_nil, Nat.add_zero, labelledRow_cons counts, own, Option.or_none]
  exact follows_append inner later'

end Rows

/-! ## Hidden chains -/

theorem follows_first {entries : List FieldEntry} {row : List Tree} {field : Option Field}
    (formed : ∀ t ∈ row, t.Formed)
    (first : ∃ e, Production.isElement e = true ∧ counted row = [e])
    (own : FieldEntry.own? entries 0 = field) :
    Follows field field (labelledRow entries none 0 row) := by
  obtain ⟨e, element, one⟩ := first
  apply follows_element formed one element own
  intro after within none
  exact follows_extras (fun t ht => formed t (within t ht)) none

theorem follows_next {entries : List FieldEntry} {row : List Tree} {field : Option Field}
    {chain : Symbol} (formed : ∀ t ∈ row, t.Formed)
    (next : ∃ e, Production.isElement e = true ∧ counted row = [chain, e])
    (inner : ∀ t ∈ row, t.symbol = chain → Follows field field (t.labelled none))
    (own : FieldEntry.own? entries 0 = none) (own' : FieldEntry.own? entries 1 = field) :
    Follows field field (labelledRow entries none 0 row) := by
  obtain ⟨e, element, both⟩ := next
  apply follows_chain formed both inner own
  intro after within one
  apply follows_element (fun t ht => formed t (within t ht)) one element own'
  intro after' within' none
  exact follows_extras (fun t ht => formed t (within t (within' t ht))) none

/-- The field of the elements in a chain. -/
def chainField : Nonterminal → Option Field
  | .arguments => some .argument
  | _ => none

def isChain : Nonterminal → Bool
  | .expressions => true
  | .arguments => true
  | _ => false

theorem Formed.follows {t : Tree} (h : Formed t) {n : Nonterminal} (chain : isChain n = true)
    (symbol : t.symbol = .nonterminal n) :
    Follows (chainField n) (chainField n) (t.labelled none) := by
  induction h with
  | @leaf token missing inside miss => exact absurd symbol (Completion.symbol_leaf_ne token missing)
  | @node label span row p admits place parts formed ih =>
      cases label with
      | error whole => cases symbol
      | skipped => cases symbol
      | production q =>
          obtain rfl : q.result = n := Symbol.nonterminal.inj symbol
          obtain ⟨spelt, -⟩ := admits
          have hidden : (Label.production q).symbol.visible = false := by
            cases q <;> first | rfl | cases chain
          rw [labelled, if_neg (by simp [hidden])]
          cases q with
          | firstExpression => exact follows_first formed (spells_first (.inl rfl) spelt) rfl
          | nextExpression =>
              exact follows_next formed (spells_next (.inl ⟨rfl, rfl⟩) spelt)
                (fun t ht => ih t ht) rfl rfl
          | firstArgument => exact follows_first formed (spells_first (.inr rfl) spelt) rfl
          | nextArgument =>
              exact follows_next formed (spells_next (.inr ⟨rfl, rfl⟩) spelt)
                (fun t ht => ih t ht) rfl rfl
          | _ => cases chain

/-! ## Each kind of node -/

section Nodes

variable {row : List Tree} (formed : ∀ t ∈ row, t.Formed)
include formed

theorem follows_inside {p : Production} (h : inside p (counted row)) :
    Follows (some .head) (some .argument) (labelledRow p.fields none 1 row) ∧
      FieldEntry.own? p.fields 0 = none ∧
      FieldEntry.own? p.fields (1 + (counted row).length) = none := by
  cases p with
  | emptyList =>
      have none : counted row = [] := h
      exact ⟨follows_extras formed none, rfl, rfl⟩
  | headList =>
      obtain ⟨e, element, head⟩ := h
      have own : FieldEntry.own? Production.headList.fields 1 = some .head := rfl
      refine ⟨?_, rfl, by rw [head]; rfl⟩
      apply follows_element formed head element own
      intro after within none
      exact follows_extras (fun t ht => formed t (within t ht)) none
  | fullList =>
      obtain ⟨e, element, both⟩ := h
      have own : FieldEntry.own? Production.fullList.fields 1 = some .head := rfl
      refine ⟨?_, rfl, by rw [both]; rfl⟩
      apply follows_element formed both element own
      intro after within chain
      apply follows_chain (fun t ht => formed t (within t ht)) chain _ rfl
      · intro after' within' none
        exact follows_extras (fun t ht => formed t (within t (within' t ht))) none
      · intro t ht symbol
        exact (formed t (within t ht)).follows (n := .arguments) rfl symbol
  | _ => exact absurd h id

theorem follows_file (h : counted row = [] ∨ counted row = [.nonterminal .expressions]) :
    Follows none none (labelledRow [] none 0 row) := by
  rcases h with none | one
  · exact follows_extras formed none
  · apply follows_chain formed one _ rfl
    · intro after within none
      exact follows_extras (fun t ht => formed t (within t ht)) none
    · intro t ht symbol
      exact (formed t ht).follows (n := .expressions) rfl symbol

end Nodes

theorem labelled_token {t : Tree} {k : TokenKind} (h : t.symbol = .token k) (visible : k ≠ .ending)
    (field : Option Field) : t.labelled field = [(field, t)] := by
  have seen : t.isVisible = true := by
    rw [isVisible, h]
    cases k <;> first | rfl | exact absurd rfl visible
  rw [labelled_eq, if_pos seen]

theorem Formed.wellShaped {t : Tree} (h : Formed t) (hp : t.isPart = true) :
    WellShaped t t.labelledChildren := by
  cases h with
  | @leaf token missing inside miss =>
      have no (n : Nonterminal) : (Tree.leaf token missing).symbol ≠ .nonterminal n :=
        Completion.symbol_leaf_ne token missing
      exact ⟨fun h => absurd h (no _), fun h => absurd h (no _), fun h => absurd h (no _)⟩
  | @node label span row p admits place parts formed =>
      cases label with
      | error whole => exact ⟨fun h => (by cases h), fun h => (by cases h), fun h => (by cases h)⟩
      | skipped => exact ⟨fun h => (by cases h), fun h => (by cases h), fun h => (by cases h)⟩
      | production q =>
          obtain ⟨spelt, tight⟩ := admits
          refine ⟨fun atom => ?_, fun list => ?_, fun file => ?_⟩
          · obtain rfl : q = .atom := by
              have result : q.result = .atom := Symbol.nonterminal.inj atom
              cases q <;> first | rfl | cases result
            obtain ⟨kind, one⟩ := spells_atom spelt
            obtain ⟨leaf, rfl, symbol⟩ := tight.singleton one
            obtain ⟨missing, bare⟩ := (formed leaf List.mem_cons_self).token symbol (by simp)
            refine ⟨kind, leaf, ?_, symbol, missing, bare, by rw [place]; rfl⟩
            have counts : leaf.isExtra = false := tight.1 leaf rfl
            rw [labelledChildren, Tree.children, labelledRow_cons counts, labelledRow_nil,
              labelled_token symbol (by simp), List.append_nil]
            rfl
          · have result : q.result = .list := Symbol.nonterminal.inj list
            obtain ⟨xs, split, within⟩ := inside_of_spells result spelt
            obtain ⟨o, mid, c, rfl, opens, closes, inner⟩ := tight.ends split
            have countsO : o.isExtra = false := tight.1 o rfl
            have last : (o :: (mid ++ [c])).getLast? = some c := by
              rw [← List.cons_append, List.getLast?_concat]
            have countsC : c.isExtra = false := tight.2 c last
            obtain ⟨follows, first, last⟩ :=
              follows_inside (fun v hv => formed v (by simp [hv])) (inner ▸ within)
            obtain ⟨missing, -⟩ := (formed o List.mem_cons_self).token opens (by simp)
            refine ⟨o, labelledRow q.fields none 1 mid, c, ?_, opens, missing, closes, ?_,
              follows.fields⟩
            · rw [labelledChildren, Tree.children, Tree.fields, Label.fields,
                labelledRow_cons countsO, first, labelledRow_append, labelledRow_cons countsC, last,
                labelledRow_nil, labelled_token opens (by simp), labelled_token closes (by simp)]
              rfl
            · exact fun d hd => (follows.mem d hd).imp_left And.left
          · have result : q.result = .sourceFile := Symbol.nonterminal.inj file
            simp [isPart, result] at hp

theorem Whole.wellShaped {ending : Token} {held : List Tree} {t : Tree} (h : Whole ending held t)
    (he : ending.kind = .ending) : WellShaped t t.labelledChildren := by
  obtain ⟨label, row, rfl, parts, -, rfl | ⟨rfl, spelt⟩⟩ := h
  · exact ⟨fun h => (by cases h), fun h => (by cases h), fun h => (by cases h)⟩
  · refine ⟨fun h => (by cases h), fun h => (by cases h), fun _ d hd => ?_⟩
    have extra : (ofToken ending).isExtra = true := by simp [ofToken, isExtra, he]
    have hidden : (ofToken ending).labelled none = [] := by
      rw [ofToken, labelled, he]
      rfl
    have follows := follows_file (fun u hu => (parts u hu).1) spelt
    have below : labelledChildren (ofChildren (.production .file) .origin (row ++ [ofToken ending])) =
        labelledRow [] none 0 row := by
      rw [labelledChildren, ofChildren, Tree.children, labelledRow_append,
        labelledRow_cons_extra extra, hidden, labelledRow_nil, List.append_nil, List.append_nil]
      rfl
    rw [below] at hd
    rcases follows.mem d hd with ⟨element, field⟩ | ⟨field, aside⟩
    · exact ⟨field.elim id id, .inl element⟩
    · exact ⟨field, .inr aside⟩

/-- Each node that the walk comes to is visible, and has below it what the grammar puts there. -/
theorem Whole.wellShaped_of_mem_preorder {ending : Token} {held : List Tree} {t : Tree}
    (h : Whole ending held t) (he : ending.kind = .ending) {c : Cursor} (hc : c ∈ t.preorder) :
    c.tree.isVisible = true ∧ c.tree.WellShaped (c.childCursors.map Cursor.label) := by
  have mem : c.tree ∈ t.preorder.map Cursor.tree := List.mem_map.2 ⟨c, hc, rfl⟩
  rw [map_tree_preorder] at mem
  rcases List.mem_cons.1 mem with top | below
  · have visible : c.tree.isVisible = true := top ▸ h.isVisible
    rw [Cursor.map_label_childCursors visible, top]
    exact ⟨h.isVisible, h.wellShaped he⟩
  · obtain ⟨below, visible⟩ := List.mem_filter.1 below
    rw [Cursor.map_label_childCursors visible]
    rcases h.of_mem_nodes below with same | ⟨formed, part, -⟩
    · rw [same, isVisible_ending he] at visible
      cases visible
    · exact ⟨visible, formed.wellShaped part⟩

end Tree

/-- Every tree has the shape of the grammar, whatever errors are in it: what a cursor comes to below
each of its nodes is what the grammar puts there, and the root is a file or an error. -/
theorem parse_wellShaped (text : List Char) :
    (∀ c ∈ (parse text).preorder, c.tree.WellShaped (c.childCursors.map Cursor.label)) ∧
      ((parse text).symbol = .nonterminal .sourceFile ∨ (parse text).symbol = .error) := by
  obtain ⟨n, whole⟩ := parse_repaired text
  exact ⟨fun c hc => (whole.wellShaped_of_mem_preorder rfl hc).2, whole.root_symbol⟩

end MettaSyntax
