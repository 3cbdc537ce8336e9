import MettaSyntax.Proofs.Extraction

/-! # Forests elsewhere

`Item.moved` puts an item at other places.  The definitions of a forest depend on its places only
through what the text has there, so they move with it. -/

set_option autoImplicit false

namespace MettaSyntax

def Span.moved (g : Position → Position) (s : Span) : Span :=
  ⟨g s.start, g s.stop⟩

theorem Span.cut_append {s : Span} {text : List Char} (h : s.stop.byte ≤ byteLength text)
    (more : List Char) : s.cut (text ++ more) = s.cut text := by
  have rest : charsBetween s.start.byte s.stop.byte (0 + byteLength text) more = [] :=
    charsBetween_outside (.inr (by omega))
  rw [Span.cut, charsBetween_append, rest, List.append_nil, Span.cut]

def Token.moved (g : Position → Position) (t : Token) : Token :=
  ⟨t.kind, t.span.moved g⟩

/-- The same definition at another place. -/
def Definition.moved (g : Position → Position) (d : Definition) : Definition :=
  { d with span := d.span.moved g }

namespace Item

mutual

def moved (g : Position → Position) : Item → Item
  | .atom kind span => .atom kind (span.moved g)
  | .comment span => .comment (span.moved g)
  | .list opening items closing => .list (opening.moved g) (movedRow g items) (closing.moved g)

def movedRow (g : Position → Position) : List Item → List Item
  | [] => []
  | i :: row => moved g i :: movedRow g row

end

theorem movedRow_eq (g : Position → Position) (row : List Item) : movedRow g row = row.map (moved g) := by
  induction row with
  | nil => rw [movedRow, List.map_nil]
  | cons i row ih => rw [movedRow, ih, List.map_cons]

theorem isComment_moved (g : Position → Position) (i : Item) : (i.moved g).isComment = i.isComment := by
  cases i <;> rw [moved] <;> rfl

theorem elements_moved (g : Position → Position) (row : List Item) :
    elements (movedRow g row) = (elements row).map (moved g) := by
  rw [elements, movedRow_eq, List.filter_map, elements]
  congr 2
  funext i
  rw [Function.comp_apply, isComment_moved]

mutual

theorem tokens_moved (g : Position → Position) (i : Item) :
    (i.moved g).tokens = i.tokens.map (Token.moved g) := by
  match i with
  | .atom kind span => rw [moved, tokens, tokens]; rfl
  | .comment span => rw [moved, tokens, tokens]; rfl
  | .list opening items closing =>
      rw [moved, tokens, tokens, tokensRow_moved g items, List.map_cons, List.map_append]
      rfl

theorem tokensRow_moved (g : Position → Position) (row : List Item) :
    tokensRow (movedRow g row) = (tokensRow row).map (Token.moved g) := by
  match row with
  | [] => rw [movedRow]; rfl
  | i :: row =>
      rw [movedRow, tokensRow_cons, tokensRow_cons, tokens_moved g i, tokensRow_moved g row,
        List.map_append]

end

mutual

theorem lists_moved (g : Position → Position) (i : Item) :
    (i.moved g).lists = i.lists.map (moved g) := by
  match i with
  | .atom kind span => simp [moved, lists]
  | .comment span => simp [moved, lists]
  | .list opening items closing =>
      rw [moved, lists, lists, listsRow_moved g items, List.map_cons, moved]

theorem listsRow_moved (g : Position → Position) (row : List Item) :
    listsRow (movedRow g row) = (listsRow row).map (moved g) := by
  match row with
  | [] => rw [movedRow, listsRow, List.map_nil]
  | i :: row =>
      rw [movedRow, listsRow, listsRow, lists_moved g i, listsRow_moved g row, List.map_append]

end

mutual

theorem moved_id (i : Item) : i.moved id = i := by
  match i with
  | .atom kind span => rw [moved]; rfl
  | .comment span => rw [moved]; rfl
  | .list opening items closing => rw [moved, movedRow_id items]; rfl

theorem movedRow_id (row : List Item) : movedRow id row = row := by
  match row with
  | [] => rw [movedRow]
  | i :: row => rw [movedRow, moved_id i, movedRow_id row]

end

mutual

theorem tokens_subset_of_mem_lists {i j : Item} (h : j ∈ i.lists) : j.tokens ⊆ i.tokens := by
  match i with
  | .atom kind span => simp [lists] at h
  | .comment span => simp [lists] at h
  | .list opening items closing =>
      rw [lists] at h
      rcases List.mem_cons.1 h with rfl | h
      · exact List.Subset.refl _
      · rw [tokens]
        intro t ht
        exact List.mem_cons_of_mem _
          (List.mem_append_left _ (tokens_subset_of_mem_listsRow h ht))

/-- The tokens of a list in a forest are tokens of the forest. -/
theorem tokens_subset_of_mem_listsRow {row : List Item} {j : Item} (h : j ∈ listsRow row) :
    j.tokens ⊆ tokensRow row := by
  match row with
  | [] => rw [listsRow] at h; cases h
  | i :: row =>
      rw [listsRow] at h
      rw [tokensRow_cons]
      intro t ht
      rcases List.mem_append.1 h with h | h
      · exact List.mem_append_left _ (tokens_subset_of_mem_lists h ht)
      · exact List.mem_append_right _ (tokens_subset_of_mem_listsRow h ht)

end

theorem tokens_subset_of_mem {row : List Item} {i : Item} (h : i ∈ row) : i.tokens ⊆ tokensRow row := by
  obtain ⟨before, after, rfl⟩ := List.append_of_mem h
  intro t ht
  simp [ht]

/-! ## Definitions -/

theorem symbol?_moved (g : Position → Position) (i : Item) :
    (i.moved g).symbol? = i.symbol?.map (Span.moved g) := by
  cases i with
  | atom kind span => cases kind <;> rw [moved] <;> rfl
  | comment span => rw [moved]; rfl
  | list opening items closing => rw [moved]; rfl

theorem mem_tokens_of_symbol? {i : Item} {span : Span} (h : i.symbol? = some span) :
    ⟨.atom .symbol, span⟩ ∈ i.tokens := by
  cases i with
  | atom kind place =>
      cases kind <;> cases h
      rw [tokens]
      exact List.mem_singleton_self _
  | comment place => cases h
  | list opening items closing => cases h

theorem name?_moved (g : Position → Position) (whole : Span) (i : Item) :
    (i.moved g).name? (whole.moved g) =
      (i.name? whole).map fun place => (place.1.moved g, place.2.moved g) := by
  cases i with
  | atom kind span => cases kind <;> rw [moved] <;> rfl
  | comment span => rw [moved]; rfl
  | list opening items closing =>
      rw [moved, name?, name?, elements_moved, List.getElem?_map]
      cases (elements items)[0]? with
      | none => rfl
      | some i =>
          rw [Option.map_some, Option.bind_some, Option.bind_some, symbol?_moved]
          cases i.symbol? <;> rfl

/-- A name and its context end where some token ends. -/
theorem stops_of_name? {i : Item} {whole name context : Span} (h : i.name? whole = some (name, context)) :
    (∃ t ∈ i.tokens, name.stop = t.span.stop) ∧
      (context = whole ∨ ∃ t ∈ i.tokens, context.stop = t.span.stop) := by
  cases i with
  | atom kind span =>
      cases kind <;> cases h
      rw [tokens]
      exact ⟨⟨_, List.mem_singleton_self _, rfl⟩, .inl rfl⟩
  | comment span => cases h
  | list opening items closing =>
      obtain ⟨name, found, same⟩ := Option.map_eq_some_iff.1 h
      cases same
      obtain ⟨i, first, symbol⟩ := Option.bind_eq_some_iff.1 found
      have mem : i ∈ items := List.mem_of_mem_filter (List.mem_of_getElem? first)
      rw [tokens]
      refine ⟨⟨⟨.atom .symbol, name⟩, ?_, rfl⟩, .inr ⟨⟨.closing, closing⟩, by simp, rfl⟩⟩
      exact List.mem_cons_of_mem _ (List.mem_append_left _
        (tokens_subset_of_mem mem (mem_tokens_of_symbol? symbol)))

/-- The place of the operator at the head of a list, and those of the name that the list gives to its
first argument and of the context of the name. -/
def operator? (items : List Item) : Option Span :=
  (elements items)[0]?.bind symbol?

def place? (whole : Span) (items : List Item) : Option (Span × Span) :=
  (elements items)[1]?.bind (name? whole)

theorem definition?_list (text : List Char) (opening : Span) (items : List Item) (closing : Span) :
    (list opening items closing).definition? text =
      ((operator? items).bind fun s => DefinitionKind.ofOperator? (s.cut text)).bind fun kind =>
        (place? ⟨opening.start, closing.stop⟩ items).map fun place =>
          ⟨.ofList (place.1.cut text), kind, place.1, .ofList (place.2.cut text)⟩ := by
  rw [definition?, operator?, place?]
  simp only [Option.bind_eq_bind, Option.bind_assoc, Option.map_eq_bind]
  rfl

theorem operator?_moved (g : Position → Position) (items : List Item) :
    operator? (movedRow g items) = (operator? items).map (Span.moved g) := by
  rw [operator?, operator?, elements_moved, List.getElem?_map]
  cases (elements items)[0]? with
  | none => rfl
  | some i => exact symbol?_moved g i

theorem place?_moved (g : Position → Position) (whole : Span) (items : List Item) :
    place? (whole.moved g) (movedRow g items) =
      (place? whole items).map fun place => (place.1.moved g, place.2.moved g) := by
  rw [place?, place?, elements_moved, List.getElem?_map]
  cases (elements items)[1]? with
  | none => rfl
  | some i => exact name?_moved g whole i

theorem stops_of_operator? {items : List Item} {operator : Span} (h : operator? items = some operator) :
    ∃ t ∈ tokensRow items, operator.stop = t.span.stop := by
  obtain ⟨i, first, symbol⟩ := Option.bind_eq_some_iff.1 h
  have mem : i ∈ items := List.mem_of_mem_filter (List.mem_of_getElem? first)
  exact ⟨_, tokens_subset_of_mem mem (mem_tokens_of_symbol? symbol), rfl⟩

theorem stops_of_place? {items : List Item} {whole name context : Span}
    (h : place? whole items = some (name, context)) :
    (∃ t ∈ tokensRow items, name.stop = t.span.stop) ∧
      (context = whole ∨ ∃ t ∈ tokensRow items, context.stop = t.span.stop) := by
  obtain ⟨i, second, named⟩ := Option.bind_eq_some_iff.1 h
  have within := tokens_subset_of_mem (List.mem_of_mem_filter (List.mem_of_getElem? second))
  obtain ⟨⟨t, ht, ends⟩, around⟩ := stops_of_name? named
  exact ⟨⟨t, within ht, ends⟩, around.imp id fun ⟨u, hu, stops⟩ => ⟨u, within hu, stops⟩⟩

theorem definitions_append (text : List Char) (xs ys : List Item) :
    definitions text (xs ++ ys) = definitions text xs ++ definitions text ys := by
  rw [definitions, listsRow_append, List.filterMap_append]
  rfl

section Definitions

variable {g : Position → Position} {text text' : List Char}

/-- An item defines the same wherever the text reads the same. -/
theorem definition?_moved {i : Item}
    (cut : ∀ s : Span, (∃ t ∈ i.tokens, s.stop = t.span.stop) → (s.moved g).cut text' = s.cut text) :
    (i.moved g).definition? text' = (i.definition? text).map (Definition.moved g) := by
  cases i with
  | atom kind span => rw [moved]; rfl
  | comment span => rw [moved]; rfl
  | list opening items closing =>
      have within (t : Token) (ht : t ∈ tokensRow items) :
          t ∈ (Item.list opening items closing).tokens := by
        rw [tokens]
        exact List.mem_cons_of_mem _ (List.mem_append_left _ ht)
      have whole : (⟨(opening.moved g).start, (closing.moved g).stop⟩ : Span) =
        Span.moved g ⟨opening.start, closing.stop⟩ := rfl
      rw [moved, definition?_list, definition?_list, operator?_moved, whole, place?_moved]
      cases operator : operator? items with
      | none => rfl
      | some s =>
          obtain ⟨t, ht, ends⟩ := stops_of_operator? operator
          rw [Option.map_some, Option.bind_some, Option.bind_some, cut s ⟨t, within t ht, ends⟩]
          cases DefinitionKind.ofOperator? (s.cut text) with
          | none => rfl
          | some kind =>
              cases place : place? ⟨opening.start, closing.stop⟩ items with
              | none => rfl
              | some place' =>
                  obtain ⟨name, context⟩ := place'
                  obtain ⟨⟨t, ht, ends⟩, around⟩ := stops_of_place? place
                  have named := cut name ⟨t, within t ht, ends⟩
                  have around' := cut context (by
                    rcases around with rfl | ⟨u, hu, stops⟩
                    · exact ⟨⟨.closing, closing⟩, by rw [tokens]; simp, rfl⟩
                    · exact ⟨u, within u hu, stops⟩)
                  simp only [Option.bind_some, Option.map_some, named, around']
                  rfl

theorem definitions_moved {row : List Item}
    (cut : ∀ s : Span, (∃ t ∈ tokensRow row, s.stop = t.span.stop) →
      (s.moved g).cut text' = s.cut text) :
    definitions text' (movedRow g row) = (definitions text row).map (Definition.moved g) := by
  rw [definitions, definitions, listsRow_moved, List.filterMap_map, List.map_filterMap]
  apply List.filterMap_congr
  intro i hi
  refine definition?_moved fun s stops => ?_
  obtain ⟨t, ht, ends⟩ := stops
  exact cut s ⟨t, tokens_subset_of_mem_listsRow hi ht, ends⟩

/-- What follows a forest in the text does not matter for its definitions. -/
theorem definitions_extend {row : List Item}
    (within : ∀ t ∈ tokensRow row, t.span.stop.byte ≤ byteLength text) (more : List Char) :
    definitions (text ++ more) row = definitions text row := by
  have same : definitions (text ++ more) (movedRow id row) =
      (definitions text row).map (Definition.moved id) := by
    refine definitions_moved fun s stops => ?_
    obtain ⟨t, ht, ends⟩ := stops
    exact Span.cut_append (ends ▸ within t ht) more
  rw [movedRow_id] at same
  exact same.trans (List.map_id _)

end Definitions

/-- The place of the name that a list defines does not depend on where the list closes. -/
theorem definition?_closing (text : List Char) (opening : Span) (items : List Item) (closing other : Span) :
    ((list opening items closing).definition? text).map (fun d => (d.name, d.kind, d.span)) =
      ((list opening items other).definition? text).map fun d => (d.name, d.kind, d.span) := by
  have same : (place? ⟨opening.start, closing.stop⟩ items).map Prod.fst =
      (place? ⟨opening.start, other.stop⟩ items).map Prod.fst := by
    rw [place?, place?]
    cases (elements items)[1]? with
    | none => rfl
    | some i =>
        rw [Option.bind_some, Option.bind_some]
        rcases i with ⟨kind, span⟩ | span | ⟨o, inner, c⟩
        · cases kind <;> rfl
        · rfl
        · rfl
  rw [definition?_list, definition?_list, Option.map_bind, Option.map_bind]
  refine Option.bind_congr fun kind _ => ?_
  have key := congrArg (Option.map fun name : Span => (String.ofList (name.cut text), kind, name)) same
  simpa only [Option.map_map, Function.comp_def] using key

theorem definitions_closing (text : List Char) (front : List Item) (opening : Span) (items : List Item)
    (closing other : Span) :
    (definitions text (front ++ [list opening items closing])).map (fun d => (d.name, d.kind, d.span)) =
      (definitions text (front ++ [list opening items other])).map fun d => (d.name, d.kind, d.span) := by
  have split (c : Span) : definitions text (front ++ [list opening items c]) =
      definitions text front ++ (((list opening items c).definition? text).toList ++
        definitions text items) := by
    rw [definitions_append, definitions.eq_def text [_], listsRow, listsRow, lists, List.append_nil,
      List.filterMap_cons]
    cases (list opening items c).definition? text <;> rfl
  rw [split, split, List.map_append, List.map_append, List.map_append, List.map_append, ← Option.toList_map,
    ← Option.toList_map, definition?_closing text opening items closing other]

end Item

end MettaSyntax
