import MettaSyntax.Proofs.Rescanning

/-! # The identifiers of files

Two files below one directory have the same identifier just where their paths are the same once
backslashes are read as slashes.  Of the files with one identifier that a scan counts, the index holds
the definitions of the last; a scan that finds no two such files keeps all that it finds. -/

set_option autoImplicit false

namespace MettaSyntax

namespace Path

/-- A path with its backslashes read as slashes. -/
def slashed (path : List Char) : List Char :=
  path.map fun c => if c = '\\' then '/' else c

theorem toUri_ofList (path : List Char) :
    toUri (.ofList path) = (if (slashed path).head? = some '/' then "file://" else "file:///") ++
      .ofList (slashed path) := by
  rw [toUri, String.toList_ofList]
  show (if (slashed path).head? = some '/' then _ else _) = _
  split <;> rfl

/-- Paths that begin alike have the same identifier just where they differ in slashes alone. -/
theorem toUri_eq_iff {p q : List Char} (head : p.head? = q.head?) :
    toUri (.ofList p) = toUri (.ofList q) ↔ slashed p = slashed q := by
  have heads : (slashed p).head? = (slashed q).head? := by
    rw [slashed, slashed, List.head?_map, List.head?_map, head]
  rw [toUri_ofList, toUri_ofList, heads, String.append_right_inj, String.ofList_inj]

theorem head?_below {path : List Char} (hp : path ≠ []) (names : List FileName) :
    (below path names).head? = path.head? := by
  induction names generalizing path with
  | nil => rfl
  | cons name names ih =>
      obtain ⟨more, joined⟩ := prefix_join path name
      rw [below_cons, ih (join_ne_nil hp name), ← joined, List.head?_append_of_ne_nil _ hp]

end Path

theorem sum_entriesOf {names : List String} (nodup : names.Nodup) {documents : List Document}
    (covers : ∀ d ∈ documents, ∀ definition ∈ d.definitions, definition.name ∈ names) :
    (names.map fun name => (entriesOf documents name).length).sum =
      (documents.map (·.definitions.length)).sum := by
  induction documents with
  | nil => simp
  | cons d documents ih =>
      obtain ⟨here, later⟩ := List.forall_mem_cons.1 covers
      have split : (fun name => (entriesOf (d :: documents) name).length) =
          fun name => d.definitions.countP (·.name = name) + (entriesOf documents name).length := by
        funext name
        rw [entriesOf_cons, List.length_append, Document.named, List.length_map,
          List.countP_eq_length_filter]
      rw [split, List.sum_map_add, Index.sum_countP_names nodup d.definitions here, ih later,
        List.map_cons, List.sum_cons]

namespace Scan

/-- The identifier of the file to which a way leads from a path. -/
def uriAt (path : String) (way : List FileName) : String :=
  Path.toUri (.ofList (Path.below path.toList way))

theorem uriAt_eq_iff {path : String} (hp : path.toList ≠ []) (way way' : List FileName) :
    uriAt path way = uriAt path way' ↔
      Path.slashed (Path.below path.toList way) = Path.slashed (Path.below path.toList way') := by
  apply Path.toUri_eq_iff
  rw [Path.head?_below hp, Path.head?_below hp]

/-- Of files in a row, those whose identifiers no later one has. -/
def lasting (path : String) : List (List FileName × String) → List (List FileName × String)
  | [] => []
  | e :: later =>
      if later.any (uriAt path ·.1 = uriAt path e.1) then lasting path later
      else e :: lasting path later

/-- A file lasts just if it stands somewhere in the row with no file of its identifier behind it. -/
theorem mem_lasting_iff {path : String} {found : List (List FileName × String)}
    {e : List FileName × String} :
    e ∈ lasting path found ↔ ∃ before after, found = before ++ e :: after ∧
      ∀ f ∈ after, uriAt path f.1 ≠ uriAt path e.1 := by
  induction found with
  | nil => simp [lasting]
  | cons first later ih =>
      rw [exists_split_cons, ← ih, lasting]
      by_cases again : later.any (uriAt path ·.1 = uriAt path first.1) = true
      · have passed : ¬ (first = e ∧ ∀ f ∈ later, uriAt path f.1 ≠ uriAt path e.1) := by
          intro ⟨here, last⟩
          obtain ⟨f, hf, same⟩ := List.any_eq_true.1 again
          exact last f hf (here ▸ of_decide_eq_true same)
        rw [if_pos again, or_iff_right passed]
      · have last : ∀ f ∈ later, uriAt path f.1 ≠ uriAt path first.1 := by simpa using again
        rw [if_neg again, List.mem_cons]
        refine or_congr_left ⟨fun here => ?_, fun here => here.1.symm⟩
        rw [here]
        exact ⟨rfl, last⟩

/-- Files with different identifiers all last. -/
theorem lasting_of_nodup {path : String} {found : List (List FileName × String)}
    (h : (found.map fun (way, _) => uriAt path way).Nodup) : lasting path found = found := by
  induction found with
  | nil => rfl
  | cons first later ih =>
      obtain ⟨absent, distinct⟩ := List.nodup_cons.1 h
      have last : ¬ later.any (uriAt path ·.1 = uriAt path first.1) = true := by
        rw [List.any_eq_true]
        intro ⟨f, hf, same⟩
        exact absent (List.mem_map.2 ⟨f, hf, of_decide_eq_true same⟩)
      rw [lasting, if_neg last, ih distinct]

/-- The document that is made of a file. -/
def document (path : String) (file : List FileName × String) : Document :=
  ⟨uriAt path file.1, Definition.all file.2.toList (parse file.2.toList)⟩

/-- The insertions of a row of files leave the documents of those that last. -/
theorem documentsAfter_files (path : String) (found : List (List FileName × String)) :
    documentsAfter (found.map fun (way, text) => .insert (uriAt path way) text) =
      (lasting path found).map (document path) := by
  induction found with
  | nil => rfl
  | cons first later ih =>
      have again : (later.map fun (way, text) => Event.insert (uriAt path way) text).any
          (·.uri = uriAt path first.1) = later.any (uriAt path ·.1 = uriAt path first.1) := by
        rw [List.any_map]
        rfl
      rw [List.map_cons, documentsAfter, Event.uri, again, ih, lasting, Event.document?]
      split
      · rfl
      · rfl

/-- A scan finds something only at a path that leads somewhere. -/
theorem exists_stat {root : FileNode} {options : ScanOptions} {path : String}
    {found : List (String × String)} (h : documents root options path = .ok found) :
    ∃ here n, Path.stat root path.toList = .ok (here, n) := by
  cases stat : Path.stat root path.toList with
  | error cause => simp [documents, Walk.files, stat, Except.map] at h
  | ok place => exact ⟨place.1, place.2, rfl⟩

theorem read?_of_stat {root : FileNode} {path : List Char} {there : Location} {text : String}
    (stat : Path.stat root path = .ok (there, .file text.toUTF8)) : read? root path = some text := by
  have valid : String.fromUTF8? text.toUTF8 = some text := dif_pos text.isValidUTF8
  exact read?_eq_some_iff.2 ⟨there, _, stat, valid⟩

/-- The documents of a scan, where the files that the walk comes to are all to be taken. -/
theorem documents_of_files {root : FileNode} {options : ScanOptions} {path : String}
    (found : List (String × String))
    (files : Walk.files root options.skips path.toList = .ok (found.map (·.1.toList)))
    (takes : ∀ e ∈ found, options.takes e.1.toList = true)
    (reads : ∀ e ∈ found, ∃ there, Path.stat root e.1.toList = .ok (there, .file e.2.toUTF8)) :
    documents root options path = .ok (found.map fun (p, text) => (Path.toUri p, text)) := by
  simp only [documents, files, Except.ok.injEq]
  clear files
  induction found with
  | nil => rfl
  | cons e rest ih =>
      obtain ⟨here, takes⟩ := List.forall_mem_cons.1 takes
      obtain ⟨⟨there, stat⟩, reads⟩ := List.forall_mem_cons.1 reads
      rw [List.map_cons, List.filter_cons_of_pos here, List.filterMap_cons, read?_of_stat stat,
        Option.map_some, String.ofList_toList, ih takes reads, List.map_cons]

end Scan

namespace Index

/-- An index has as many entries as its documents have definitions. -/
theorem Represents.length_entries {index : Index} {documents : List Document}
    (h : index.Represents documents) :
    index.entries.length = (documents.map (·.definitions.length)).sum := by
  have covers : ∀ d ∈ documents, ∀ definition ∈ d.definitions, definition.name ∈ index.names := by
    intro d hd definition hdef
    rw [h.mem_names_iff, h.lookup]
    exact List.ne_nil_of_mem (mem_entriesOf_iff (e := ⟨d.uri, definition⟩).2 ⟨d, hd, rfl, hdef, rfl⟩)
  rw [← sum_entriesOf h.names_nodup covers, entries, List.length_flatMap]
  simp only [h.lookup]

/-- What a scan of the empty index leaves are the documents that it finds. -/
theorem represents_of_scan {root : FileNode} {options : ScanOptions} {path : String} {index : Index}
    {count : Nat} (scanned : empty.scan root options path = .ok (index, count)) :
    ∃ found, Scan.documents root options path = .ok found ∧ count = found.length ∧
      index.Represents (documentsAfter (found.map fun (uri, text) => .insert uri text)) := by
  obtain ⟨found, documents, rfl, rfl⟩ := scan_eq_ok_iff.1 scanned
  have start : empty.Represents (documentsAfter []) := .empty
  exact ⟨found, documents, rfl, start.applyEvents _⟩

/-- The files that a scan of an empty index counts have the same identifier just where their paths are
the same once backslashes are read as slashes.  Of the files with one identifier the last swallows the
others: the entries of the index are its definitions.  If no two of the paths are the same in this way,
then the index holds each definition of each file under its name, with the identifier of the file, and
it has as many entries as the files have definitions. -/
theorem scan_apart {root : FileNode} (formed : root.IsFormed) {options : ScanOptions} {path : String}
    {index : Index} {count : Nat} (scanned : empty.scan root options path = .ok (index, count)) :
    ∃ found : List (List FileName × String),
      Scan.documents root options path =
        .ok (found.map fun (way, text) => (Scan.uriAt path way, text)) ∧
      found.length = count ∧
      (∀ way text, (way, text) ∈ found ↔ Scan.Finds root options path.toList way text) ∧
      (found.map fun (way, _) => Path.below path.toList way).Nodup ∧
      (∀ e ∈ found, ∀ f ∈ found, Scan.uriAt path e.1 = Scan.uriAt path f.1 ↔
        Path.slashed (Path.below path.toList e.1) = Path.slashed (Path.below path.toList f.1)) ∧
      (∀ e, e ∈ Scan.lasting path found ↔ ∃ before after, found = before ++ e :: after ∧
        ∀ f ∈ after, Scan.uriAt path f.1 ≠ Scan.uriAt path e.1) ∧
      (∀ name entry, entry ∈ index.lookup name ↔ ∃ e ∈ Scan.lasting path found,
        entry.uri = Scan.uriAt path e.1 ∧
        entry.definition ∈ Definition.all e.2.toList (parse e.2.toList) ∧
        entry.definition.name = name) ∧
      index.entries.length = ((Scan.lasting path found).map fun (_, text) =>
        (Definition.all text.toList (parse text.toList)).length).sum ∧
      ((found.map fun (way, _) => Path.slashed (Path.below path.toList way)).Nodup →
        (found.map fun (way, _) => Scan.uriAt path way).Nodup ∧
        (∀ e ∈ found, ∀ d ∈ Definition.all e.2.toList (parse e.2.toList),
          ⟨Scan.uriAt path e.1, d⟩ ∈ index.lookup d.name) ∧
        index.entries.length =
          (found.map fun (_, text) => (Definition.all text.toList (parse text.toList)).length).sum) := by
  obtain ⟨documents, found', rfl, represents⟩ := represents_of_scan scanned
  obtain ⟨here, n, stat⟩ := Scan.exists_stat found'
  obtain ⟨found, found'', distinct, -, mem⟩ := Scan.exists_found formed options stat
  obtain rfl := Except.ok.inj (found'.symm.trans found'')
  have same (e f : List FileName × String) := Scan.uriAt_eq_iff (Path.ne_nil_of_stat stat) e.1 f.1
  rw [List.map_map] at represents
  have represents : index.Represents ((Scan.lasting path found).map (Scan.document path)) := by
    rw [← Scan.documentsAfter_files]
    exact represents
  have entries (name : String) (entry : Entry) : entry ∈ index.lookup name ↔
      ∃ e ∈ Scan.lasting path found, entry.uri = Scan.uriAt path e.1 ∧
        entry.definition ∈ Definition.all e.2.toList (parse e.2.toList) ∧
        entry.definition.name = name := by
    simp only [represents.lookup, mem_entriesOf_iff, List.mem_map, exists_exists_and_eq_and]
    rfl
  have total : index.entries.length = ((Scan.lasting path found).map fun (_, text) =>
      (Definition.all text.toList (parse text.toList)).length).sum := by
    rw [represents.length_entries, List.map_map]
    rfl
  refine ⟨found, found'', (List.length_map _).symm, mem, distinct, fun e _ f _ => same e f,
    fun e => Scan.mem_lasting_iff, entries, total, ?_⟩
  intro apart
  have uris : (found.map fun (way, _) => Scan.uriAt path way).Nodup :=
    List.pairwise_map.2 ((List.pairwise_map.1 apart).imp fun {e f} differ => mt (same e f).1 differ)
  rw [Scan.lasting_of_nodup uris] at entries total
  exact ⟨uris, fun e he d hd => (entries d.name ⟨Scan.uriAt path e.1, d⟩).2 ⟨e, he, rfl, hd, rfl⟩, total⟩

/-- Two files whose paths differ in a backslash alone, and two whose paths do not, although there is a
backslash in one of them. -/
def twinTree : FileNode :=
  .directory [
    ("others".toList, .directory [
      ("c.metta".toList, .file "(= c 1)".toUTF8),
      ("d\\e.metta".toList, .file "(: d T)".toUTF8)]),
    ("twins".toList, .directory [
      ("a".toList, .directory [("b.metta".toList, .file "(= slash 1)".toUTF8)]),
      ("a\\b.metta".toList, .file "(= back 1)".toUTF8)])]

/-- A scan that passes over no directory. -/
def openOptions : ScanOptions := { passedOver := [] }

theorem twinTree_formed : twinTree.IsFormed := by
  simp only [twinTree, FileNode.IsFormed, FileNode.AreFormed]
  decide

/-- A walk through the first directory finds two files, one for each entry. -/
theorem walk_others :
    Walk.files twinTree openOptions.skips "others".toList =
        .ok ["others/c.metta".toList, "others/d\\e.metta".toList] ∧
      Path.stat twinTree "others/c.metta".toList =
        .ok (["others".toList, "c.metta".toList], .file "(= c 1)".toUTF8) ∧
      Path.stat twinTree "others/d\\e.metta".toList =
        .ok (["others".toList, "d\\e.metta".toList], .file "(: d T)".toUTF8) := by
  have order : FileNode.sorted [
      ("c.metta".toList, .file "(= c 1)".toUTF8),
      ("d\\e.metta".toList, .file "(: d T)".toUTF8)] = _ := FileNode.sorted_eq_self (by decide)
  simp only [String.reduceToList, String.toUTF8_eq_toByteArray] at order
  simp [Walk.files, Walk.filesAmong.eq_def, FileNode.directories, FileNode.directoriesAmong, order,
    twinTree, Path.stat, Path.resolve, Path.follow, Path.parts, Path.join, Path.isStay, Path.pathLimit,
    Path.nameLimit, Path.linkLimit, FileNode.at?, FileNode.entries, List.lookup_cons, byteLength,
    Char.utf8Size, Except.bind, Except.map]

/-- A walk through the second directory finds a file below an entry, and another one for an entry. -/
theorem walk_twins :
    Walk.files twinTree openOptions.skips "twins".toList =
        .ok ["twins/a/b.metta".toList, "twins/a\\b.metta".toList] ∧
      Path.stat twinTree "twins/a/b.metta".toList =
        .ok (["twins".toList, "a".toList, "b.metta".toList], .file "(= slash 1)".toUTF8) ∧
      Path.stat twinTree "twins/a\\b.metta".toList =
        .ok (["twins".toList, "a\\b.metta".toList], .file "(= back 1)".toUTF8) := by
  have order : FileNode.sorted [
      ("a".toList, .directory [("b.metta".toList, .file "(= slash 1)".toUTF8)]),
      ("a\\b.metta".toList, .file "(= back 1)".toUTF8)] = _ := FileNode.sorted_eq_self (by decide)
  have alone (e : FileName × FileNode) : FileNode.sorted [e] = [e] :=
    FileNode.sorted_eq_self (List.pairwise_singleton _ e)
  simp only [String.reduceToList, String.toUTF8_eq_toByteArray] at order
  simp [Walk.files, Walk.filesAmong.eq_def, FileNode.directories, FileNode.directoriesAmong, order,
    alone, twinTree, openOptions, ScanOptions.skips, Path.stat, Path.resolve, Path.follow, Path.parts,
    Path.join, Path.isStay, Path.pathLimit, Path.nameLimit, Path.linkLimit, FileNode.at?,
    FileNode.entries, List.lookup_cons, byteLength, Char.utf8Size, Except.bind, Except.map]

theorem documents_others : Scan.documents twinTree openOptions "others" =
    .ok [("file:///others/c.metta", "(= c 1)"), ("file:///others/d/e.metta", "(: d T)")] := by
  obtain ⟨files, first, second⟩ := walk_others
  refine (Scan.documents_of_files [("others/c.metta", "(= c 1)"), ("others/d\\e.metta", "(: d T)")]
    files (by decide +kernel) ?_).trans (congrArg _ (by decide +kernel))
  exact List.forall_mem_cons.2 ⟨⟨_, first⟩, List.forall_mem_singleton.2 ⟨_, second⟩⟩

theorem documents_twins : Scan.documents twinTree openOptions "twins" =
    .ok [("file:///twins/a/b.metta", "(= slash 1)"), ("file:///twins/a/b.metta", "(= back 1)")] := by
  obtain ⟨files, first, second⟩ := walk_twins
  refine (Scan.documents_of_files [("twins/a/b.metta", "(= slash 1)"), ("twins/a\\b.metta", "(= back 1)")]
    files (by decide +kernel) ?_).trans (congrArg _ (by decide +kernel))
  exact List.forall_mem_cons.2 ⟨⟨_, first⟩, List.forall_mem_singleton.2 ⟨_, second⟩⟩

/-- Two files that are no twins, one of them with a backslash in its name, are kept apart. -/
theorem scan_apart_others :
    twinTree.IsFormed ∧ ∃ index, empty.scan twinTree openOptions "others" = .ok (index, 2) ∧
      ∃ found : List (List FileName × String), found.length = 2 ∧
        (found.map fun (way, _) => Scan.uriAt "others" way).Nodup ∧
        (∀ e ∈ found, ∀ d ∈ Definition.all e.2.toList (parse e.2.toList),
          ⟨Scan.uriAt "others" e.1, d⟩ ∈ index.lookup d.name) ∧
        index.entries.length =
          (found.map fun (_, text) => (Definition.all text.toList (parse text.toList)).length).sum := by
  have scanned : empty.scan twinTree openOptions "others" = .ok (_, 2) :=
    scan_eq_ok_iff.2 ⟨_, documents_others, rfl, rfl⟩
  obtain ⟨found, documents, two, -, -, same, -, -, -, apart⟩ := scan_apart twinTree_formed scanned
  refine ⟨twinTree_formed, _, scanned, found, two, apart ?_⟩
  have uris : (found.map fun (way, _) => Scan.uriAt "others" way) =
      ["file:///others/c.metta", "file:///others/d/e.metta"] := by
    have all := congrArg (List.map Prod.fst) (Except.ok.inj (documents.symm.trans documents_others))
    rwa [List.map_map] at all
  have distinct : (found.map fun (way, _) => Scan.uriAt "others" way).Nodup := by
    rw [uris]
    decide +kernel
  exact List.pairwise_map.2 ((List.pairwise_map.1 distinct).imp_of_mem
    fun {e f} he hf differ => mt (same e he f hf).2 differ)

/-- Of two files whose paths differ in a backslash alone, only the second is left by a scan that counts
both. -/
theorem scan_swallows :
    twinTree.IsFormed ∧ ∃ index, empty.scan twinTree openOptions "twins" = .ok (index, 2) ∧
      ∃ way way', way ≠ way' ∧
        Scan.Finds twinTree openOptions "twins".toList way "(= slash 1)" ∧
        Scan.Finds twinTree openOptions "twins".toList way' "(= back 1)" ∧
        Scan.uriAt "twins" way = Scan.uriAt "twins" way' ∧
        (∃ d ∈ Definition.all "(= slash 1)".toList (parse "(= slash 1)".toList),
          ⟨Scan.uriAt "twins" way, d⟩ ∉ index.lookup d.name) ∧
        index.entries.length = 1 := by
  have scanned : empty.scan twinTree openOptions "twins" = .ok (_, 2) :=
    scan_eq_ok_iff.2 ⟨_, documents_twins, rfl, rfl⟩
  obtain ⟨here, n, stat⟩ := Scan.exists_stat documents_twins
  obtain ⟨found, documents, distinct, -, mem⟩ := Scan.exists_found twinTree_formed openOptions stat
  have all := Except.ok.inj (documents.symm.trans documents_twins)
  obtain ⟨⟨way, text⟩, rest, rfl, first, all⟩ := List.map_eq_cons_iff.1 all
  obtain ⟨⟨way', text'⟩, rest, rfl, second, all⟩ := List.map_eq_cons_iff.1 all
  obtain rfl := List.map_eq_nil_iff.1 all
  obtain ⟨uri, rfl⟩ := Prod.mk.inj first
  obtain ⟨uri', rfl⟩ := Prod.mk.inj second
  have differ : way ≠ way' := by
    rintro rfl
    simp at distinct
  refine ⟨twinTree_formed, _, scanned, way, way', differ, (mem _ _).1 (by simp),
    (mem _ _).1 (by simp), uri.trans uri'.symm, ?_, by decide +kernel⟩
  rw [show Scan.uriAt "twins" way = "file:///twins/a/b.metta" from uri]
  decide +kernel

end Index

end MettaSyntax
