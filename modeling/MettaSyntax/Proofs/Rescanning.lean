import MettaSyntax.Index.Suggestion
import MettaSyntax.Proofs.Scanning

/-! # Scanning again

Events change under each name only the entries of the documents that they are about: the others stay in
their order, and after them come those that the events leave.  A scan is a row of such events, so a second
scan of the same files finds after the other documents exactly what it puts there again. -/

set_option autoImplicit false

namespace MettaSyntax

theorem uri_of_mem_documentsAfter {events : List Event} {d : Document} (h : d ∈ documentsAfter events) :
    d.uri ∈ events.map Event.uri := by
  induction events with
  | nil => cases h
  | cons e later ih =>
      rw [List.map_cons, List.mem_cons]
      rw [documentsAfter] at h
      split at h
      · exact .inr (ih h)
      · rcases List.mem_append.1 h with here | later
        · cases e with
          | insert uri source =>
              obtain rfl := List.mem_singleton.1 here
              exact .inl rfl
          | erase uri => cases here
        · exact .inr (ih later)

theorem uri_of_mem_entriesOf {documents : List Document} {name : String} {e : Index.Entry}
    (h : e ∈ entriesOf documents name) : ∃ d ∈ documents, e.uri = d.uri := by
  obtain ⟨d, hd, he⟩ := List.mem_flatMap.1 h
  exact ⟨d, hd, Document.uri_of_mem_named he⟩

namespace Index

/-! ## Events on any index -/

section Events

variable {index : Index} (tidy : Tidy index.rows)
include tidy

theorem Tidy.replace (uri : String) (definitions : List Definition) :
    Tidy (index.replace uri definitions).rows ∧
      ∀ name, (index.replace uri definitions).lookup name =
        (index.lookup name).filter (·.uri ≠ uri) ++ (⟨uri, definitions⟩ : Document).named name := by
  obtain ⟨tidy', rowsOf⟩ := foldl_append_tidy (tidy.eraseRows uri) uri definitions
  refine ⟨tidy', fun name => ?_⟩
  have erased : rowOf (Index.eraseRows uri index.rows) name =
      (index.lookup name).filter (·.uri ≠ uri) := tidy.rowOf_eraseRows uri name
  rw [← erased]
  exact rowsOf name

/-- An event replaces the entries of its document, under each name. -/
theorem Tidy.applyEvent (e : Event) :
    Tidy (index.applyEvent e).rows ∧
      ∀ name, (index.applyEvent e).lookup name =
        (index.lookup name).filter (·.uri ≠ e.uri) ++ entriesOf e.document?.toList name := by
  cases e with
  | insert uri source =>
      obtain ⟨tidy', lookups⟩ := tidy.replace uri (Definition.all source.toList (parse source.toList))
      refine ⟨tidy', fun name => (lookups name).trans ?_⟩
      rw [Event.document?, Option.toList_some, entriesOf_cons, entriesOf_nil, List.append_nil]
      rfl
  | erase uri =>
      refine ⟨tidy.eraseRows uri, fun name => (tidy.rowOf_eraseRows uri name).trans ?_⟩
      rw [Event.document?, Option.toList_none, entriesOf_nil, List.append_nil]
      rfl

/-- A row of events leaves the entries of all other documents in their order, and puts those of the
documents that it leaves after them. -/
theorem Tidy.applyEvents (events : List Event) :
    Tidy (events.foldl Index.applyEvent index).rows ∧
      ∀ name, (events.foldl Index.applyEvent index).lookup name =
        (index.lookup name).filter (·.uri ∉ events.map Event.uri) ++
          entriesOf (documentsAfter events) name := by
  induction events using List.reverseRecOn with
  | nil => exact ⟨tidy, fun name => by simp [documentsAfter]⟩
  | append_singleton events e ih =>
      obtain ⟨before, lookups⟩ := ih
      obtain ⟨after, lookups'⟩ := before.applyEvent e
      rw [List.foldl_concat]
      refine ⟨after, fun name => ?_⟩
      have others : ((index.lookup name).filter (·.uri ∉ events.map Event.uri)).filter (·.uri ≠ e.uri) =
          (index.lookup name).filter (·.uri ∉ (events ++ [e]).map Event.uri) := by
        rw [List.filter_filter]
        congr 1
        funext entry
        simp [and_comm]
      rw [lookups', lookups, List.filter_append, others, documentsAfter_append, entriesOf_append,
        entriesOf_filter, List.append_assoc]

/-- A row of events has no more to do a second time. -/
theorem Tidy.lookup_applyEvents_twice (events : List Event) (name : String) :
    (events.foldl Index.applyEvent (events.foldl Index.applyEvent index)).lookup name =
      (events.foldl Index.applyEvent index).lookup name := by
  obtain ⟨once, lookups⟩ := tidy.applyEvents events
  obtain ⟨-, lookups'⟩ := once.applyEvents events
  have gone : (entriesOf (documentsAfter events) name).filter (·.uri ∉ events.map Event.uri) = [] := by
    rw [List.filter_eq_nil_iff]
    intro entry he
    obtain ⟨d, hd, uri⟩ := uri_of_mem_entriesOf he
    have named : entry.uri ∈ events.map Event.uri := uri ▸ uri_of_mem_documentsAfter hd
    simpa using named
  rw [lookups', lookups, List.filter_append, gone, List.append_nil, List.filter_filter]
  simp only [Bool.and_self]

end Events

/-! ## What is told by the entries -/

/-- The names of an index are told by the entries under them. -/
theorem Tidy.names_eq {a b : Index} (ha : Tidy a.rows) (hb : Tidy b.rows)
    (same : ∀ name, a.lookup name = b.lookup name) : a.names = b.names := by
  have keys : (a.rows.map Prod.fst).Perm (b.rows.map Prod.fst) := by
    rw [List.perm_ext_iff_of_nodup ha.nodup hb.nodup]
    intro name
    rw [mem_keys_iff ha, mem_keys_iff hb]
    show a.lookup name ≠ [] ↔ b.lookup name ≠ []
    rw [same]
  have perm : a.names.Perm b.names := a.names_perm.trans (keys.trans b.names_perm.symm)
  exact perm.eq_of_pairwise (fun _ _ _ _ => String.le_antisymm) a.names_sorted b.names_sorted

theorem describe?_congr {a b : Index} {name : String} (same : a.lookup name = b.lookup name)
    (uri : String) : a.describe? name uri = b.describe? name uri := by
  rw [describe?, describe?, same]

theorem suggestions_congr {a b : Index} (same : a.names = b.names) : a.suggestions = b.suggestions := by
  rw [suggestions, suggestions, same]

/-! ## Scans -/

/-- What a scan does to an index is a row of insertions, which depends on the file tree alone. -/
theorem scan_eq_ok_iff {index scanned : Index} {root : FileNode} {options : ScanOptions} {path : String}
    {count : Nat} :
    index.scan root options path = .ok (scanned, count) ↔
      ∃ found, Scan.documents root options path = .ok found ∧ count = found.length ∧
        scanned = (found.map fun (uri, text) => Event.insert uri text).foldl applyEvent index := by
  rw [scan]
  cases Scan.documents root options path with
  | error cause => simp [Except.map]
  | ok found =>
      simp only [Except.map, Except.ok.injEq, Prod.mk.injEq, exists_eq_left', List.foldl_map]
      rw [and_comm]
      exact and_congr eq_comm eq_comm

/-- Rows without entries are lost at the first event. -/
theorem exists_tidy {index : Index} (distinct : (index.rows.map Prod.fst).Nodup) :
    ∃ kept : Index, Tidy kept.rows ∧ ∀ e, kept.applyEvent e = index.applyEvent e := by
  refine ⟨⟨index.rows.filter (·.2 ≠ [])⟩, ⟨?_, by simp⟩, fun e => ?_⟩
  · exact (List.filter_sublist.map Prod.fst).nodup distinct
  · have erased (uri : String) : Index.erase ⟨index.rows.filter (·.2 ≠ [])⟩ uri = index.erase uri := by
      rw [Index.erase, Index.erase, List.filterMap_filter]
      congr 2
      funext (name, row)
      by_cases none : row = [] <;> simp [none]
    cases e with
    | insert uri source => rw [Index.applyEvent, Index.applyEvent, insert, insert, replace, replace, erased]
    | erase uri => exact erased uri

/-- A scan that is made again of the same file tree counts as many files as before, and nothing that
can be asked of the index is answered in another way.  The index may be any whose names are distinct. -/
theorem scan_again {index : Index} (distinct : (index.rows.map Prod.fst).Nodup) {root : FileNode}
    {options : ScanOptions} {path : String} {scanned : Index} {count : Nat}
    (h : index.scan root options path = .ok (scanned, count)) :
    ∃ again, scanned.scan root options path = .ok (again, count) ∧
      (∀ name, again.lookup name = scanned.lookup name) ∧ again.names = scanned.names ∧
      (∀ name uri, again.describe? name uri = scanned.describe? name uri) ∧
      again.suggestions = scanned.suggestions := by
  obtain ⟨found, documents, rfl, rfl⟩ := scan_eq_ok_iff.1 h
  refine ⟨_, scan_eq_ok_iff.2 ⟨found, documents, rfl, rfl⟩, ?_⟩
  cases found with
  | nil => exact ⟨fun _ => rfl, rfl, fun _ _ => rfl, rfl⟩
  | cons first rest =>
      generalize all : ((first :: rest).map fun (uri, text) => Event.insert uri text) = events
      obtain ⟨kept, tidy, same⟩ := exists_tidy distinct
      have start : events.foldl applyEvent index = events.foldl applyEvent kept := by
        rw [← all, List.map_cons, List.foldl_cons, List.foldl_cons, same]
      rw [start]
      have lookups := tidy.lookup_applyEvents_twice events
      have once := (tidy.applyEvents events).1
      have names := (once.applyEvents events).1.names_eq once lookups
      exact ⟨lookups, names, fun name uri => describe?_congr (lookups name) uri, suggestions_congr names⟩

/-- A scan fails only where its path leads nowhere. -/
theorem exists_scan {root : FileNode} {path : String} {found : Location × FileNode}
    (stat : Path.stat root path.toList = .ok found) (index : Index) (options : ScanOptions) :
    ∃ scanned count, index.scan root options path = .ok (scanned, count) := by
  simp [scan, Scan.documents, Walk.files, stat, Except.map]

/-- An index that holds an older text of one of the files, and a document that is no file. -/
def editedIndex : Index :=
  run [.insert "file:///work/z.metta" "(= old 0)", .insert "untitled" "(= z 9)"]

theorem scan_again_sampleTree :
    (editedIndex.rows.map Prod.fst).Nodup ∧ ∃ scanned again count,
      editedIndex.scan sampleTree {} "/work" = .ok (scanned, count) ∧
      scanned.scan sampleTree {} "/work" = .ok (again, count) ∧
      (∀ name, again.lookup name = scanned.lookup name) ∧ again.names = scanned.names ∧
      (∀ name uri, again.describe? name uri = scanned.describe? name uri) ∧
      again.suggestions = scanned.suggestions := by
  have distinct : (editedIndex.rows.map Prod.fst).Nodup := (run_represents _).tidy.nodup
  obtain ⟨n, stat⟩ := stat_sampleTree
  obtain ⟨scanned, count, first⟩ := exists_scan stat editedIndex {}
  obtain ⟨again, second, same⟩ := scan_again distinct first
  exact ⟨distinct, scanned, again, count, first, second, same⟩

end Index

end MettaSyntax
