import Mathlib.Algebra.BigOperators.Group.List.Lemmas
import Mathlib.Algebra.GroupWithZero.Nat
import MettaSyntax.Proofs.ByteOrder
import MettaSyntax.Workspace.Scan

/-! # The index refines a list of documents

After any run of commands the index answers as a plain list of documents would, in which every
document stands at the time of its latest insertion with the definitions of its latest text.  The
invariant `Index.Represents` ties the rows of an index to such a list: no name has two rows, no
row is empty, and under each name are the definitions with that name, document by document. -/

set_option autoImplicit false

namespace MettaSyntax

structure Document where
  uri : String
  definitions : List Definition

inductive Event where
  | insert (uri source : String)
  | erase (uri : String)

namespace Event

def uri : Event → String
  | .insert uri _ => uri
  | .erase uri => uri

def document? : Event → Option Document
  | .insert uri source => some ⟨uri, Definition.all source.toList (parse source.toList)⟩
  | .erase _ => none

end Event

/-- The documents that are there after a row of events: what the last event about each leaves, in the
order of these events. -/
def documentsAfter : List Event → List Document
  | [] => []
  | e :: later =>
      if later.any (·.uri = e.uri) then documentsAfter later
      else e.document?.toList ++ documentsAfter later

/-- The definitions of a document that have a name, in the order of the document. -/
def Document.named (d : Document) (name : String) : List Index.Entry :=
  (d.definitions.filter (·.name = name)).map (⟨d.uri, ·⟩)

/-- The entries of documents that have a name, document by document. -/
def entriesOf (documents : List Document) (name : String) : List Index.Entry :=
  documents.flatMap (·.named name)

/-- What may be asked of an index.  A scan reads the file tree that is there at its time. -/
inductive Command where
  | insert (uri source : String)
  | erase (uri : String)
  | scan (root : FileNode) (options : ScanOptions) (path : String)

namespace Command

/-- What a command does to an index.  A scan that fails leaves it as it is. -/
def apply (index : Index) : Command → Index
  | .insert uri source => (index.insert uri source).1
  | .erase uri => index.erase uri
  | .scan root options path =>
      match index.scan root options path with
      | .ok (scanned, _) => scanned
      | .error _ => index

/-- What happens to documents at a command: a scan inserts those that it finds. -/
def events : Command → List Event
  | .insert uri source => [.insert uri source]
  | .erase uri => [.erase uri]
  | .scan root options path =>
      match Scan.documents root options path with
      | .ok found => found.map fun (uri, source) => .insert uri source
      | .error _ => []

end Command

def Index.run (commands : List Command) : Index :=
  commands.foldl Command.apply Index.empty

def Index.entries (index : Index) : List Index.Entry :=
  index.names.flatMap index.lookup

/-! ## Documents -/

/-- A row is split at its head, or what follows the head is split. -/
theorem exists_split_cons {α : Type} {P : List α → Prop} {a e : α} {row : List α} :
    (∃ before after, a :: row = before ++ e :: after ∧ P after) ↔
      (a = e ∧ P row) ∨ ∃ before after, row = before ++ e :: after ∧ P after := by
  constructor
  · intro ⟨before, after, split, rest⟩
    cases before with
    | nil =>
        obtain ⟨here, same⟩ := List.cons.inj split
        exact .inl ⟨here, same ▸ rest⟩
    | cons first before => exact .inr ⟨before, after, (List.cons.inj split).2, rest⟩
  · intro split
    rcases split with ⟨here, rest⟩ | ⟨before, after, later, rest⟩
    · exact ⟨[], row, congrArg (· :: row) here, rest⟩
    · exact ⟨a :: before, after, congrArg (a :: ·) later, rest⟩

theorem Document.mem_named_iff {d : Document} {name : String} {e : Index.Entry} :
    e ∈ d.named name ↔
      e.uri = d.uri ∧ e.definition ∈ d.definitions ∧ e.definition.name = name := by
  constructor
  · intro mem
    obtain ⟨definition, found, rfl⟩ := List.mem_map.1 mem
    obtain ⟨mem, named⟩ := List.mem_filter.1 found
    exact ⟨rfl, mem, of_decide_eq_true named⟩
  · intro ⟨uri, mem, named⟩
    refine List.mem_map.2 ⟨e.definition, List.mem_filter.2 ⟨mem, decide_eq_true named⟩, ?_⟩
    rw [← uri]

theorem Document.uri_of_mem_named {d : Document} {name : String} {e : Index.Entry}
    (h : e ∈ d.named name) : e.uri = d.uri :=
  (mem_named_iff.1 h).1

/-- The entries under a name are the definitions with it, each with the identifier of its document. -/
theorem mem_entriesOf_iff {documents : List Document} {name : String} {e : Index.Entry} :
    e ∈ entriesOf documents name ↔ ∃ d ∈ documents,
      e.uri = d.uri ∧ e.definition ∈ d.definitions ∧ e.definition.name = name := by
  simp only [entriesOf, List.mem_flatMap, Document.mem_named_iff]

@[simp] theorem entriesOf_nil (name : String) : entriesOf [] name = [] := rfl

@[simp] theorem entriesOf_cons (d : Document) (documents : List Document) (name : String) :
    entriesOf (d :: documents) name = d.named name ++ entriesOf documents name := rfl

theorem entriesOf_append (xs ys : List Document) (name : String) :
    entriesOf (xs ++ ys) name = entriesOf xs name ++ entriesOf ys name := by
  simp [entriesOf]

theorem entriesOf_filter (documents : List Document) (uri name : String) :
    entriesOf (documents.filter (·.uri ≠ uri)) name =
      (entriesOf documents name).filter (·.uri ≠ uri) := by
  induction documents with
  | nil => rfl
  | cons d documents ih =>
      by_cases same : d.uri = uri
      · have gone : (d.named name).filter (·.uri ≠ uri) = [] := by
          rw [List.filter_eq_nil_iff]
          intro e he
          simp [Document.uri_of_mem_named he, same]
        rw [List.filter_cons_of_neg (by simp [same]), ih, entriesOf_cons, List.filter_append, gone,
          List.nil_append]
      · have kept : (d.named name).filter (·.uri ≠ uri) = d.named name := by
          rw [List.filter_eq_self]
          intro e he
          simp [Document.uri_of_mem_named he, same]
        rw [List.filter_cons_of_pos (by simpa using same), entriesOf_cons, ih, entriesOf_cons,
          List.filter_append, kept]

/-- One more event replaces what was left of its document, and puts it last. -/
theorem documentsAfter_append (events : List Event) (e : Event) :
    documentsAfter (events ++ [e]) =
      (documentsAfter events).filter (·.uri ≠ e.uri) ++ e.document?.toList := by
  induction events with
  | nil => simp [documentsAfter]
  | cons first later ih =>
      rw [List.cons_append, documentsAfter, documentsAfter, List.any_append]
      -- the first event tells unless a later one is about its document, or the last one is
      by_cases again : later.any (·.uri = first.uri) = true
      · simp only [again, Bool.true_or, if_true, ih]
      · by_cases same : e.uri = first.uri
        · have gone : first.document?.toList.filter (·.uri ≠ e.uri) = [] := by
            cases first with
            | insert uri source =>
                have here : uri = e.uri := same.symm
                simp [Event.document?, here]
            | erase uri => rfl
          simp only [again, same, List.any_cons, decide_true, List.any_nil, Bool.or_false,
            Bool.or_true, if_true, Bool.false_eq_true, if_false, ih, List.filter_append]
          rw [same] at gone
          rw [gone, List.nil_append]
        · have kept : first.document?.toList.filter (·.uri ≠ e.uri) = first.document?.toList := by
            cases first with
            | insert uri source =>
                have other : uri ≠ e.uri := fun h => same h.symm
                simp [Event.document?, other]
            | erase uri => rfl
          simp only [again, same, List.any_cons, decide_false, List.any_nil, Bool.or_false,
            Bool.false_eq_true, if_false, ih, List.filter_append, kept, List.append_assoc]

/-! ## Rows -/

namespace Index

def rowOf (rows : List (String × List Entry)) (name : String) : List Entry :=
  (rows.lookup name).getD []

@[simp] theorem rowOf_nil (name : String) : rowOf [] name = [] := rfl

theorem rowOf_cons (key : String) (row : List Entry) (rows : List (String × List Entry))
    (name : String) :
    rowOf ((key, row) :: rows) name = if name = key then row else rowOf rows name := by
  unfold rowOf
  rw [List.lookup_cons]
  by_cases h : name = key
  · simp [h]
  · have other : (name == key) = false := beq_false_of_ne h
    rw [other, if_neg h]

theorem rowOf_append (e : Entry) (rows : List (String × List Entry)) (name : String) :
    rowOf (append e rows) name =
      rowOf rows name ++ if e.definition.name = name then [e] else [] := by
  induction rows with
  | nil =>
      rw [append, rowOf_cons, rowOf_nil, List.nil_append]
      simp only [eq_comm]
  | cons entry rows ih =>
      obtain ⟨key, row⟩ := entry
      rw [append]
      by_cases here : key = e.definition.name
      · rw [if_pos here, rowOf_cons, rowOf_cons]
        by_cases asked : name = key
        · simp [asked, here]
        · have other : e.definition.name ≠ name := fun h => asked (by rw [here, h])
          simp [asked, other]
      · rw [if_neg here, rowOf_cons, rowOf_cons, ih]
        by_cases asked : name = key
        · have other : e.definition.name ≠ name := fun h => here (by rw [← asked, h])
          simp [asked, Ne.symm here]
        · simp [asked]

theorem rowOf_of_not_mem {rows : List (String × List Entry)} {name : String}
    (h : name ∉ rows.map Prod.fst) : rowOf rows name = [] := by
  induction rows with
  | nil => rfl
  | cons entry rows ih =>
      obtain ⟨key, row⟩ := entry
      rw [List.map_cons, List.mem_cons, not_or] at h
      rw [rowOf_cons, if_neg h.1, ih h.2]

theorem mem_keys_append (e : Entry) (rows : List (String × List Entry)) (name : String) :
    name ∈ (append e rows).map Prod.fst ↔ name = e.definition.name ∨ name ∈ rows.map Prod.fst := by
  induction rows with
  | nil => simp [append]
  | cons entry rows ih =>
      obtain ⟨key, row⟩ := entry
      rw [append]
      split
      · next here =>
          subst here
          simp
      · rw [List.map_cons, List.mem_cons, ih, List.map_cons, List.mem_cons]
        exact or_left_comm

/-- The rows of an index have different names, and none is empty. -/
structure Tidy (rows : List (String × List Entry)) : Prop where
  nodup : (rows.map Prod.fst).Nodup
  nonempty : ∀ row ∈ rows, row.2 ≠ []

theorem Tidy.append {rows : List (String × List Entry)} (h : Tidy rows) (e : Entry) :
    Tidy (append e rows) := by
  obtain ⟨nodup, nonempty⟩ := h
  induction rows with
  | nil => exact ⟨by simp [Index.append], by simp [Index.append]⟩
  | cons entry rows ih =>
      obtain ⟨key, row⟩ := entry
      rw [List.map_cons, List.nodup_cons] at nodup
      obtain ⟨nodup', nonempty'⟩ := ih nodup.2 fun r hr => nonempty r (List.mem_cons_of_mem _ hr)
      rw [Index.append]
      split
      · refine ⟨List.nodup_cons.2 nodup, ?_⟩
        intro r hr
        rcases List.mem_cons.1 hr with rfl | hr
        · simp
        · exact nonempty r (List.mem_cons_of_mem _ hr)
      · next other =>
          refine ⟨List.nodup_cons.2 ⟨?_, nodup'⟩, ?_⟩
          · rw [mem_keys_append, not_or]
            exact ⟨other, nodup.1⟩
          · intro r hr
            rcases List.mem_cons.1 hr with rfl | hr
            · exact nonempty _ List.mem_cons_self
            · exact nonempty' r hr

def eraseRows (uri : String) (rows : List (String × List Entry)) : List (String × List Entry) :=
  rows.filterMap fun (name, row) =>
    match row.filter (·.uri ≠ uri) with
    | [] => none
    | kept => some (name, kept)

theorem eraseRows_cons (uri key : String) (row : List Entry) (rows : List (String × List Entry)) :
    eraseRows uri ((key, row) :: rows) =
      if row.filter (·.uri ≠ uri) = [] then eraseRows uri rows
      else (key, row.filter (·.uri ≠ uri)) :: eraseRows uri rows := by
  rw [eraseRows, List.filterMap_cons]
  dsimp only
  cases row.filter (·.uri ≠ uri) with
  | nil => rfl
  | cons e kept => rfl

theorem mem_keys_eraseRows {uri name : String} {rows : List (String × List Entry)}
    (h : name ∈ (eraseRows uri rows).map Prod.fst) : name ∈ rows.map Prod.fst := by
  induction rows with
  | nil => exact h
  | cons entry rows ih =>
      obtain ⟨key, row⟩ := entry
      rw [eraseRows_cons] at h
      rw [List.map_cons]
      split at h
      · exact List.mem_cons_of_mem _ (ih h)
      · rcases List.mem_cons.1 h with rfl | h
        · exact List.mem_cons_self
        · exact List.mem_cons_of_mem _ (ih h)

theorem Tidy.eraseRows {rows : List (String × List Entry)} (h : Tidy rows) (uri : String) :
    Tidy (eraseRows uri rows) := by
  obtain ⟨nodup, nonempty⟩ := h
  induction rows with
  | nil => exact ⟨List.nodup_nil, by simp [Index.eraseRows]⟩
  | cons entry rows ih =>
      obtain ⟨key, row⟩ := entry
      rw [List.map_cons, List.nodup_cons] at nodup
      have rest := ih nodup.2 fun r hr => nonempty r (List.mem_cons_of_mem _ hr)
      rw [eraseRows_cons]
      split
      · exact rest
      · next kept =>
          refine ⟨List.nodup_cons.2 ⟨fun mem => nodup.1 (mem_keys_eraseRows mem), rest.nodup⟩, ?_⟩
          intro r hr
          rcases List.mem_cons.1 hr with rfl | hr
          · exact kept
          · exact rest.nonempty r hr

theorem Tidy.rowOf_eraseRows {rows : List (String × List Entry)} (h : Tidy rows)
    (uri name : String) :
    rowOf (Index.eraseRows uri rows) name = (rowOf rows name).filter (·.uri ≠ uri) := by
  obtain ⟨nodup, nonempty⟩ := h
  induction rows with
  | nil => rfl
  | cons entry rows ih =>
      obtain ⟨key, row⟩ := entry
      rw [List.map_cons, List.nodup_cons] at nodup
      have rest := ih nodup.2 fun r hr => nonempty r (List.mem_cons_of_mem _ hr)
      rw [eraseRows_cons, rowOf_cons]
      by_cases asked : name = key
      · rw [if_pos asked]
        split
        · next gone =>
            -- the row disappears, and no other row has its name
            rw [gone, asked]
            exact rowOf_of_not_mem fun mem => nodup.1 (mem_keys_eraseRows mem)
        · rw [rowOf_cons, if_pos asked]
      · rw [if_neg asked]
        split
        · exact rest
        · rw [rowOf_cons, if_neg asked, rest]

theorem mem_keys_iff {rows : List (String × List Entry)} (h : Tidy rows) (name : String) :
    name ∈ rows.map Prod.fst ↔ rowOf rows name ≠ [] := by
  constructor
  · intro mem
    obtain ⟨nodup, nonempty⟩ := h
    clear nodup
    induction rows with
    | nil => cases mem
    | cons entry rows ih =>
        obtain ⟨key, row⟩ := entry
        rw [rowOf_cons]
        split
        · exact nonempty _ List.mem_cons_self
        · next other =>
            have later : name ∈ rows.map Prod.fst := by
              rcases List.mem_cons.1 mem with here | later
              · exact absurd here other
              · exact later
            exact ih later fun r hr => nonempty r (List.mem_cons_of_mem _ hr)
  · intro some
    apply Classical.byContradiction
    intro missing
    exact some (rowOf_of_not_mem missing)

/-! ## The refinement -/

/-- An index answers as a list of documents. -/
structure Represents (index : Index) (documents : List Document) : Prop where
  tidy : Tidy index.rows
  lookup : ∀ name, index.lookup name = entriesOf documents name

theorem Represents.empty : Represents Index.empty [] :=
  ⟨⟨List.nodup_nil, by simp [Index.empty]⟩, fun _ => rfl⟩

theorem Represents.erase {index : Index} {documents : List Document}
    (h : index.Represents documents) (uri : String) :
    (index.erase uri).Represents (documents.filter (·.uri ≠ uri)) := by
  refine ⟨h.tidy.eraseRows uri, fun name => ?_⟩
  rw [entriesOf_filter, ← h.lookup]
  exact h.tidy.rowOf_eraseRows uri name

theorem foldl_append_tidy {rows : List (String × List Entry)} (h : Tidy rows) (uri : String)
    (definitions : List Definition) :
    Tidy (definitions.foldl (fun rows d => append ⟨uri, d⟩ rows) rows) ∧
      ∀ name, rowOf (definitions.foldl (fun rows d => append ⟨uri, d⟩ rows) rows) name =
        rowOf rows name ++ (⟨uri, definitions⟩ : Document).named name := by
  induction definitions generalizing rows with
  | nil => exact ⟨h, by simp [Document.named]⟩
  | cons d definitions ih =>
      obtain ⟨tidy, rowsOf⟩ := ih (h.append ⟨uri, d⟩)
      refine ⟨tidy, fun name => ?_⟩
      rw [List.foldl_cons, rowsOf, rowOf_append]
      by_cases same : d.name = name
      · simp [Document.named, same]
      · simp [Document.named, same]

theorem Represents.replace {index : Index} {documents : List Document}
    (h : index.Represents documents) (uri : String) (definitions : List Definition) :
    (index.replace uri definitions).Represents
      (documents.filter (·.uri ≠ uri) ++ [⟨uri, definitions⟩]) := by
  have erased := h.erase uri
  obtain ⟨tidy, rowsOf⟩ := foldl_append_tidy erased.tidy uri definitions
  refine ⟨tidy, fun name => ?_⟩
  rw [entriesOf_append, ← erased.lookup, entriesOf_cons, entriesOf_nil, List.append_nil]
  exact rowsOf name

def applyEvent (index : Index) : Event → Index
  | .insert uri source => (index.insert uri source).1
  | .erase uri => index.erase uri

theorem Represents.applyEvent {index : Index} {events : List Event}
    (h : index.Represents (documentsAfter events)) (e : Event) :
    (index.applyEvent e).Represents (documentsAfter (events ++ [e])) := by
  rw [documentsAfter_append]
  cases e with
  | insert uri source => exact h.replace uri _
  | erase uri =>
      rw [Event.document?, Option.toList_none, List.append_nil]
      exact h.erase uri

theorem Represents.applyEvents {index : Index} {events : List Event}
    (h : index.Represents (documentsAfter events)) (more : List Event) :
    (more.foldl Index.applyEvent index).Represents (documentsAfter (events ++ more)) := by
  induction more generalizing index events with
  | nil => simpa using h
  | cons e more ih =>
      have next := ih (h.applyEvent e)
      rwa [List.append_assoc] at next

theorem apply_eq_foldl (index : Index) (c : Command) :
    c.apply index = c.events.foldl Index.applyEvent index := by
  cases c with
  | insert uri source => rfl
  | erase uri => rfl
  | scan root options path =>
      rw [Command.apply, Command.events, Index.scan]
      cases Scan.documents root options path with
      | error cause => rfl
      | ok found =>
          show found.foldl (fun index (uri, text) => (index.insert uri text).1) index = _
          rw [List.foldl_map]
          rfl

theorem Represents.foldl_apply {index : Index} {events : List Event}
    (h : index.Represents (documentsAfter events)) (commands : List Command) :
    (commands.foldl Command.apply index).Represents
      (documentsAfter (events ++ commands.flatMap Command.events)) := by
  induction commands generalizing index events with
  | nil => simpa using h
  | cons c commands ih =>
      have step := h.applyEvents c.events
      rw [← apply_eq_foldl] at step
      have rest := ih step
      rwa [List.append_assoc] at rest

/-- After any run of commands, an index answers as the list of documents that the run leaves. -/
theorem run_represents (commands : List Command) :
    (run commands).Represents (documentsAfter (commands.flatMap Command.events)) := by
  have start : Index.empty.Represents (documentsAfter []) := .empty
  exact start.foldl_apply commands

/-! ## Names -/

theorem names_perm (index : Index) : index.names.Perm (index.rows.map Prod.fst) :=
  List.mergeSort_perm _ _

theorem Represents.names_nodup {index : Index} {documents : List Document}
    (h : index.Represents documents) : index.names.Nodup :=
  index.names_perm.nodup_iff.2 h.tidy.nodup

theorem Represents.mem_names_iff {index : Index} {documents : List Document}
    (h : index.Represents documents) (name : String) :
    name ∈ index.names ↔ index.lookup name ≠ [] := by
  rw [index.names_perm.mem_iff]
  exact mem_keys_iff h.tidy name

theorem names_sorted (index : Index) : index.names.Pairwise (· ≤ ·) := by
  have sorted : index.names.Pairwise fun a b => decide (a ≤ b) = true := by
    apply List.pairwise_mergeSort
    · intro a b c hab hbc
      simp only [decide_eq_true_eq] at hab hbc ⊢
      exact String.le_trans hab hbc
    · intro a b
      simp only [Bool.or_eq_true, decide_eq_true_eq]
      exact String.le_total a b
  exact sorted.imp of_decide_eq_true

theorem Represents.names_ascend {index : Index} {documents : List Document}
    (h : index.Represents documents) :
    index.names.Pairwise fun a b => utf8Bytes a < utf8Bytes b := by
  refine (index.names_sorted.and h.names_nodup).imp ?_
  rintro a b ⟨le, ne⟩
  apply utf8Bytes_lt
  rw [← String.not_le]
  intro ge
  exact ne (String.le_antisymm le ge)

/-! ## Counting -/

theorem countP_named (d : Document) (name : String) :
    (d.named name).countP (·.uri = d.uri) = d.definitions.countP (·.name = name) := by
  rw [Document.named, List.countP_map, List.countP_filter]
  congr 1
  funext definition
  simp

theorem countP_entriesOf (documents : List Document) (d : Document) (name : String) :
    (entriesOf (documents.filter (·.uri ≠ d.uri) ++ [d]) name).countP (·.uri = d.uri) =
      d.definitions.countP (·.name = name) := by
  have others : (entriesOf (documents.filter (·.uri ≠ d.uri)) name).countP (·.uri = d.uri) = 0 := by
    rw [entriesOf_filter, List.countP_eq_zero]
    intro e he
    simpa using (List.mem_filter.1 he).2
  rw [entriesOf_append, List.countP_append, others, entriesOf_cons, entriesOf_nil, List.append_nil,
    countP_named, Nat.zero_add]

theorem sum_eq_count (names : List String) (name : String) :
    (names.map fun other => if name = other then 1 else 0).sum = names.count name := by
  induction names with
  | nil => rfl
  | cons other names ih =>
      rw [List.map_cons, List.sum_cons, ih, List.count_cons, Nat.add_comm]
      by_cases same : name = other
      · simp [same]
      · simp [same, Ne.symm same]

theorem sum_countP_names {names : List String} (nodup : names.Nodup) (definitions : List Definition)
    (covers : ∀ d ∈ definitions, d.name ∈ names) :
    (names.map fun name => definitions.countP (·.name = name)).sum = definitions.length := by
  induction definitions with
  | nil => simp
  | cons d definitions ih =>
      have once : (names.map fun name => if d.name = name then 1 else 0).sum = 1 := by
        rw [sum_eq_count]
        exact List.count_eq_one_of_mem nodup (covers d List.mem_cons_self)
      have split : (fun name => (d :: definitions).countP (·.name = name)) =
          fun name => definitions.countP (·.name = name) + if d.name = name then 1 else 0 := by
        funext name
        rw [List.countP_cons]
        simp
      rw [split, List.sum_map_add, ih fun e he => covers e (List.mem_cons_of_mem _ he), once]
      rfl

theorem Represents.count_insert {index : Index} {documents : List Document}
    (h : index.Represents documents) (uri source : String) :
    (index.insert uri source).2 =
      (index.insert uri source).1.entries.countP (·.uri = uri) := by
  have after : (index.insert uri source).1.Represents _ :=
    h.replace uri (Definition.all source.toList (parse source.toList))
  have total : (index.insert uri source).2 =
      (Definition.all source.toList (parse source.toList)).length := rfl
  generalize (index.insert uri source).1 = inserted at *
  generalize Definition.all source.toList (parse source.toList) = found at *
  have counts (name : String) :
      (inserted.lookup name).countP (·.uri = uri) = found.countP (·.name = name) := by
    rw [after.lookup]
    exact countP_entriesOf documents ⟨uri, found⟩ name
  have covers : ∀ d ∈ found, d.name ∈ inserted.names := by
    intro d hd
    rw [after.mem_names_iff]
    intro none
    have some : 0 < (inserted.lookup d.name).countP (·.uri = uri) := by
      rw [counts, List.countP_pos_iff]
      exact ⟨d, hd, by simp⟩
    rw [none] at some
    cases some
  rw [total, entries, List.countP_flatMap, ← sum_countP_names after.names_nodup found covers]
  congr 2
  funext name
  exact (counts name).symm

end Index

/-- The index refines a list of documents.  After any run of commands on an empty index, and with
`documents` for what the latest events about each document leave: a look-up gives the definitions
with a name document by document, the names ascend in the order of their bytes and are those with
entries, and every insertion returns the number of entries that its document has afterwards. -/
theorem index_refines_documents (commands : List Command) :
    let index := Index.run commands
    let documents := documentsAfter (commands.flatMap Command.events)
    (∀ name, index.lookup name = entriesOf documents name) ∧
      (index.names.Pairwise fun a b => utf8Bytes a < utf8Bytes b) ∧
      (∀ name, name ∈ index.names ↔ index.lookup name ≠ []) ∧
      ∀ uri source, (index.insert uri source).2 =
        (index.insert uri source).1.entries.countP (·.uri = uri) := by
  intro index documents
  have represents := Index.run_represents commands
  exact ⟨represents.lookup, represents.names_ascend, represents.mem_names_iff,
    represents.count_insert⟩

end MettaSyntax
