import MettaSyntax.Proofs.Documents
import MettaSyntax.Proofs.Walking

/-! # Scans are exact

A scan whose path leads nowhere fails and leaves the index as it is.  Any other scan inserts exactly the
source files at and below its path, each once and in the order of their names. -/

set_option autoImplicit false

namespace MettaSyntax

/-- From a path, a way leads to a file that a scan takes, with a text in it. -/
structure Scan.Finds (root : FileNode) (options : ScanOptions) (path : List Char) (way : List FileName)
    (text : String) : Prop where
  names : ∀ name ∈ way, Path.IsName name
  reads : ∃ there content, Path.stat root (Path.below path way) = .ok (there, .file content) ∧
    String.fromUTF8? content = some text
  takes : Path.extension? (Path.below path way) = some options.extension.toList
  /-- No directory on the way is passed over. -/
  admits : ∀ before name after, way = before ++ name :: after → ∀ there entries,
    Path.stat root (Path.below path (before ++ [name])) = .ok (there, .directory entries) →
      String.ofList name ∉ options.passedOver
  /-- No link on the way leads to a directory that the way is inside of before it. -/
  forward : ∀ before name after, way = before ++ name :: after →
    Walk.IsLink root (Path.below path before) name → ∀ there entries,
      Path.stat root (Path.below path (before ++ [name])) = .ok (there, .directory entries) →
        ∀ inside, inside <+: before → ∀ n, Path.stat root (Path.below path inside) ≠ .ok (there, n)

/-! ## The places on a way -/

namespace Walk

section Places

variable (root : FileNode) (skips : FileName → Bool)

/-- The directory at a place on a way from a path is not passed over, and no link leads there from
inside of it, where `above` are the directories around the path. -/
def Admits (above : List Location) (path : List Char) (before : List FileName)
    (name : FileName) : Prop :=
  ∀ there entries,
    Path.stat root (Path.below path (before ++ [name])) = .ok (there, .directory entries) →
      skips name = false ∧ (IsLink root (Path.below path before) name → there ∉ above ∧
        ∀ inside, inside <+: before → inside ≠ [] →
          ∀ n, Path.stat root (Path.below path inside) ≠ .ok (there, n))

variable {root skips} {above : List Location} {path : List Char} {here : Location} {n : FileNode}

theorem admits_nil {name : FileName} (stat : Path.stat root (Path.join path name) = .ok (here, n)) :
    Admits root skips above path [] name ↔
      (n.isDirectory = true → skips name = false ∧ (IsLink root path name → here ∉ above)) := by
  constructor
  · intro admits directory
    cases n with
    | file content => cases directory
    | link target => cases directory
    | directory entries =>
        obtain ⟨enters, outside⟩ := admits here entries stat
        exact ⟨enters, fun link => (outside link).1⟩
  · intro admits there entries stat'
    have same := stat.symm.trans stat'
    cases same
    obtain ⟨enters, outside⟩ := admits rfl
    refine ⟨enters, fun link => ⟨outside link, fun inside none some => ?_⟩⟩
    exact absurd (List.prefix_nil.1 none) some

theorem admits_cons {first : FileName} (stat : Path.stat root (Path.join path first) = .ok (here, n))
    (before : List FileName) (name : FileName) :
    Admits root skips above path (first :: before) name ↔
      Admits root skips (here :: above) (Path.join path first) before name := by
  refine forall₃_congr fun there entries next => and_congr_right fun _ => forall_congr' fun link => ?_
  rw [List.mem_cons, not_or]
  constructor
  · rintro ⟨outside, apart⟩
    refine ⟨⟨?_, outside⟩, fun inside part some => ?_⟩
    · rintro rfl
      exact apart [first] (List.prefix_append [first] before) (by simp) n stat
    · exact apart (first :: inside) ((List.prefix_cons_inj first).2 part) (by simp)
  · rintro ⟨⟨other, outside⟩, apart⟩
    refine ⟨outside, fun inside part some m stat' => ?_⟩
    obtain rfl | ⟨rest, rfl, shorter⟩ := List.prefix_cons_iff.1 part
    · exact some rfl
    · cases rest with
      | nil =>
          have same := stat.symm.trans stat'
          cases same
          exact other rfl
      | cons second rest => exact apart (second :: rest) shorter (by simp) m stat'

/-- A path leads somewhere if it does when it goes on by names. -/
theorem exists_stat (hp : path ≠ []) {way : List FileName} (names : ∀ name ∈ way, Path.IsName name)
    (h : Path.stat root (Path.below path way) = .ok (here, n)) :
    ∃ there m, Path.stat root path = .ok (there, m) := by
  induction way generalizing path with
  | nil => exact ⟨here, n, h⟩
  | cons name way ih =>
      obtain ⟨isName, names⟩ := List.forall_mem_cons.1 names
      obtain ⟨there, m, next⟩ := ih (Path.join_ne_nil hp name) names h
      obtain ⟨above, entries, k, stat, -⟩ := Path.stat_join hp isName next
      exact ⟨above, _, stat⟩

/-- A way that reaches a file is one whose places all admit it. -/
theorem reaches_iff (hp : path ≠ []) {way : List FileName} :
    Reaches root skips above path way ↔ (∀ name ∈ way, Path.IsName name) ∧
      (∃ there content, Path.stat root (Path.below path way) = .ok (there, .file content)) ∧
      ∀ before name after, way = before ++ name :: after → Admits root skips above path before name := by
  induction way generalizing above path with
  | nil => simp [Reaches]
  | cons name rest ih =>
      have ih {above : List Location} := @ih above _ (Path.join_ne_nil hp name)
      rw [Reaches, List.forall_mem_cons]
      constructor
      · rintro ⟨isName, here, n, stat, admits, onward⟩
        obtain ⟨names, file, onward⟩ := ih.1 onward
        refine ⟨⟨isName, names⟩, file, fun before other after split => ?_⟩
        cases before with
        | nil =>
            cases split
            exact (admits_nil stat).2 admits
        | cons first before =>
            cases split
            exact (admits_cons stat before other).2 (onward before other after rfl)
      · rintro ⟨⟨isName, names⟩, ⟨there, content, file⟩, admits⟩
        obtain ⟨here, n, stat⟩ := exists_stat (Path.join_ne_nil hp name) names file
        refine ⟨isName, here, n, stat, (admits_nil stat).1 (admits [] name rest rfl), ?_⟩
        refine ih.2 ⟨names, ⟨there, content, file⟩, ?_⟩
        rintro before other after rfl
        exact (admits_cons stat before other).1 (admits (name :: before) other after rfl)

end Places

end Walk

/-! ## Scans -/

theorem ScanOptions.skips_eq_false_iff (options : ScanOptions) {name : FileName} :
    options.skips name = false ↔ String.ofList name ∉ options.passedOver := by
  have same (s : String) : s.toList = name ↔ s = String.ofList name := by
    rw [← String.toList_inj, String.toList_ofList]
  simp only [skips, List.any_eq_false, decide_eq_true_eq, same]
  exact ⟨fun h mem => h _ mem rfl, fun h s mem eq => h (eq ▸ mem)⟩

namespace Scan

variable (root : FileNode) (options : ScanOptions) (path : List Char)

theorem read?_eq_some_iff {root : FileNode} {path : List Char} {text : String} :
    read? root path = some text ↔ ∃ there content, Path.stat root path = .ok (there, .file content) ∧
      String.fromUTF8? content = some text := by
  unfold read?
  cases Path.stat root path with
  | error cause => simp
  | ok found =>
      obtain ⟨here, n⟩ := found
      cases n with
      | file content => simp
      | directory entries => simp
      | link target => simp

/-- What a scan makes of a way: it takes the file there, if it is one to take and can be read. -/
def take? (way : List FileName) : Option (List FileName × String) :=
  if options.takes (Path.below path way) then (read? root (Path.below path way)).map (way, ·) else none

/-- What a scan finds on ways is what it takes of them. -/
theorem documents_eq {ways : List (List FileName)} {path : String}
    (found : Walk.files root options.skips path.toList = .ok (ways.map (Path.below path.toList))) :
    documents root options path = .ok ((ways.filterMap (take? root options path.toList)).map
      fun (way, text) => (Path.toUri (.ofList (Path.below path.toList way)), text)) := by
  unfold documents
  rw [found]
  simp only [Except.ok.injEq]
  rw [List.filterMap_filter, List.filterMap_map, List.map_filterMap]
  congr 1
  funext way
  simp only [Function.comp, take?]
  split
  · rw [Option.map_map]
    rfl
  · rfl

variable {root options path} in
theorem take?_eq_some_iff {way way' : List FileName} {text : String} :
    take? root options path way = some (way', text) ↔ way = way' ∧
      options.takes (Path.below path way) = true ∧ read? root (Path.below path way) = some text := by
  unfold take?
  split
  · next takes => simp [takes, and_comm]
  · next other => simp [other]

end Scan

variable {root : FileNode} {options : ScanOptions} {path : List Char}

/-- What a scan takes of the ways that a walk finds. -/
theorem Scan.finds_iff {here : Location} {n : FileNode} (stat : Path.stat root path = .ok (here, n))
    {way : List FileName} {text : String} :
    Finds root options path way text ↔ Walk.Reaches root options.skips [here] path way ∧
      options.takes (Path.below path way) = true ∧ read? root (Path.below path way) = some text := by
  rw [Walk.reaches_iff (Path.ne_nil_of_stat stat), read?_eq_some_iff, ScanOptions.takes,
    decide_eq_true_eq]
  constructor
  · rintro ⟨names, ⟨there, content, file, text⟩, takes, admits, forward⟩
    refine ⟨⟨names, ⟨there, content, file⟩, ?_⟩, takes, ⟨there, content, file, text⟩⟩
    intro before name after split there' entries stat'
    have enters := options.skips_eq_false_iff.2 (admits before name after split there' entries stat')
    refine ⟨enters, fun link => ?_⟩
    have apart := forward before name after split link there' entries stat'
    refine ⟨fun same => ?_, fun inside part _ => apart inside part⟩
    rw [List.mem_singleton.1 same] at apart
    exact apart [] List.nil_prefix n stat
  · rintro ⟨⟨names, -, places⟩, takes, reads⟩
    refine ⟨names, reads, takes, ?_, ?_⟩
    · intro before name after split there entries stat'
      exact options.skips_eq_false_iff.1 (places before name after split there entries stat').1
    · intro before name after split link there entries stat' inside part m back
      obtain ⟨outside, apart⟩ := (places before name after split there entries stat').2 link
      cases inside with
      | nil =>
          have same := stat.symm.trans back
          cases same
          exact outside (List.mem_singleton.2 rfl)
      | cons first rest => exact apart _ part (by simp) m back

/-- The documents of a scan are those of the files that it finds, each once and in the order of their
names. -/
theorem Scan.exists_found (formed : root.IsFormed) (options : ScanOptions) {path : String}
    {here : Location} {n : FileNode} (stat : Path.stat root path.toList = .ok (here, n)) :
    ∃ found : List (List FileName × String),
      documents root options path = .ok (found.map fun (way, text) =>
        (Path.toUri (.ofList (Path.below path.toList way)), text)) ∧
      (found.map fun (way, _) => Path.below path.toList way).Nodup ∧
      (found.map Prod.fst).Pairwise Walk.Before ∧
      ∀ way text, (way, text) ∈ found ↔ Finds root options path.toList way text := by
  obtain ⟨ways, walked, ordered, complete⟩ := Walk.files_eq formed options.skips stat
  have mem (way : List FileName) (text : String) :
      (way, text) ∈ ways.filterMap (take? root options path.toList) ↔
        Finds root options path.toList way text := by
    rw [finds_iff stat, ← complete, List.mem_filterMap]
    constructor
    · rintro ⟨way', mem, taken⟩
      obtain ⟨rfl, takes, reads⟩ := take?_eq_some_iff.1 taken
      exact ⟨mem, takes, reads⟩
    · rintro ⟨mem, takes, reads⟩
      exact ⟨way, mem, take?_eq_some_iff.2 ⟨rfl, takes, reads⟩⟩
  have ascend : (ways.filterMap (take? root options path.toList)).Pairwise
      fun e f => Walk.Before e.1 f.1 := by
    refine ordered.filterMap _ fun xs ys before e taken f taken' => ?_
    obtain ⟨rfl, -⟩ := take?_eq_some_iff.1 taken
    obtain ⟨rfl, -⟩ := take?_eq_some_iff.1 taken'
    exact before
  refine ⟨_, documents_eq root options walked, ?_, List.pairwise_map.2 ascend, mem⟩
  refine List.pairwise_map.2 (ascend.imp_of_mem fun {e f} he hf before same => before.ne ?_)
  have namesE := ((mem e.1 e.2).1 he).names
  have namesF := ((mem f.1 f.2).1 hf).names
  exact Path.below_injective (Path.ne_nil_of_stat stat) namesE namesF same

/-- A scan is exact.  If there is nothing at its path it fails, and the index stays as it is.  Otherwise
it inserts the texts of exactly the files that are to be found at and below the path, each once, in the
order of their names, and counts them. -/
theorem Index.scan_exact (index : Index) (formed : root.IsFormed) (options : ScanOptions)
    (path : String) :
    (∀ cause, Path.stat root path.toList = .error cause →
      index.scan root options path = .error ⟨path, cause⟩ ∧
        (Command.scan root options path).apply index = index) ∧
    ∀ here n, Path.stat root path.toList = .ok (here, n) →
      ∃ found : List (List FileName × String),
        index.scan root options path = .ok (found.foldl (fun index (way, text) =>
          (index.insert (Path.toUri (.ofList (Path.below path.toList way))) text).1) index,
            found.length) ∧
        (found.map fun (way, _) => Path.below path.toList way).Nodup ∧
        (found.map Prod.fst).Pairwise Walk.Before ∧
        ∀ way text, (way, text) ∈ found ↔ Scan.Finds root options path.toList way text := by
  constructor
  · intro cause stat
    have failed : index.scan root options path = .error ⟨path, cause⟩ := by
      simp [Index.scan, Scan.documents, Walk.files, stat, Except.map]
    exact ⟨failed, by rw [Command.apply, failed]⟩
  · intro here n stat
    obtain ⟨found, documents, distinct, ordered, mem⟩ := Scan.exists_found formed options stat
    refine ⟨found, ?_, distinct, ordered, mem⟩
    simp only [Index.scan, documents, Except.map, List.foldl_map, List.length_map]

/-- A workspace with a source file, a directory that is passed over, a broken link, and a link to a
directory with another source file, in which a link leads back. -/
def sampleTree : FileNode :=
  .directory [
    ("lib".toList, .directory [
      ("b.metta".toList, .file "(= b 2)".toUTF8),
      ("back".toList, .link "/work".toList)]),
    ("work".toList, .directory [
      ("z.metta".toList, .file "(= z 1)".toUTF8),
      ("node_modules".toList, .directory [("c.metta".toList, .file "(= c 3)".toUTF8)]),
      ("lib".toList, .link "../lib".toList),
      ("gone".toList, .link "nowhere".toList)])]

theorem stat_sampleTree : ∃ n, Path.stat sampleTree "/work".toList = .ok (["work".toList], n) := by
  have resolved : Path.resolve sampleTree "/work".toList = .ok ["work".toList] := by
    refine Path.resolve_eq_ok_iff.2 ⟨by decide, by decide, by decide, Path.linkLimit, ?_⟩
    exact .step (.stay rfl rfl)
      (.step (.down rfl rfl (by decide) (by decide) rfl (by simp)) (.done Path.linkLimit _))
  exact ⟨_, Path.stat_eq_ok_iff.2 ⟨resolved, rfl⟩⟩

theorem Index.scan_sampleTree :
    sampleTree.IsFormed ∧ ∃ found : List (List FileName × String),
      Index.empty.scan sampleTree {} "/work" = .ok (found.foldl (fun index (way, text) =>
        (index.insert (Path.toUri (.ofList (Path.below "/work".toList way))) text).1) Index.empty,
          found.length) ∧
      (found.map Prod.fst).Pairwise Walk.Before ∧
      ∀ way text, (way, text) ∈ found ↔ Scan.Finds sampleTree {} "/work".toList way text := by
  have formed : sampleTree.IsFormed := by
    simp only [sampleTree, FileNode.IsFormed, FileNode.AreFormed]
    decide
  obtain ⟨n, stat⟩ := stat_sampleTree
  obtain ⟨found, scanned, -, ascend, mem⟩ := (Index.empty.scan_exact formed {} "/work").2 _ _ stat
  exact ⟨formed, found, scanned, ascend, mem⟩

end MettaSyntax
