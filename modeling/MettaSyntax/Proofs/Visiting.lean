import Mathlib.Algebra.Group.Nat.Defs
import Mathlib.Data.List.Basic
import Mathlib.Logic.Function.Iterate
import MettaSyntax.Proofs.Walking
import MettaSyntax.Workspace.Scan

/-! # A walk one entry at a time

A machine that scans a workspace without any bound on its loops.  It keeps the directories that it is
inside of on a stack, each with the entries in it that are still to be visited.  A step visits one
entry, or leaves a directory in which nothing is left.  A link is followed by asking what is at its
path, and the machine refuses only a link to a directory that is on the stack; a directory can be
entered again as an entry of another one.  It always comes to an end, whatever the links are, and what
it returns then is what the scan returns. -/

set_option autoImplicit false

namespace MettaSyntax

open FileNode

def FileNode.isLink : FileNode → Bool
  | .link _ => true
  | _ => false

/-- A directory that a walk is inside of, and the entries in it that are still to be visited. -/
structure OpenDirectory where
  path : List Char
  here : Location
  left : Entries

inductive Scanner where
  | starting (index : Index) (path : String)
  /-- The walk is inside of the directories `inside`, innermost first; what it has found so far is
  indexed and counted. -/
  | visiting (inside : List OpenDirectory) (taken : Index × Nat)
  | returned (result : Except ScanError (Index × Nat))

namespace Scanner

section Steps

variable (root : FileNode) (options : ScanOptions)

/-- Indexes and counts the file at a path, if it is a source file and can be read. -/
def take (taken : Index × Nat) (path : List Char) : Index × Nat :=
  if options.takes path then
    match Scan.read? root path with
    | some text => ((taken.1.insert (Path.toUri (.ofList path)) text).1, taken.2 + 1)
    | none => taken
  else taken

/-- Visits an entry of the innermost directory. -/
def visit (inside : List OpenDirectory) (taken : Index × Nat) (path : List Char) (name : FileName)
    (n : FileNode) : Scanner :=
  match Path.stat root (Path.join path name) with
  | .ok (_, .file _) => visiting inside (take root options taken (Path.join path name))
  | .ok (there, .directory entries) =>
      if n.isLink ∧ ∃ d ∈ inside, d.here = there then visiting inside taken
      else if options.skips name then visiting inside taken
      else visiting (⟨Path.join path name, there, sorted entries⟩ :: inside) taken
  | _ => visiting inside taken

def step : Scanner → Scanner
  | starting index path =>
      match Path.stat root path.toList with
      | .error cause => returned (.error ⟨path, cause⟩)
      | .ok (_, .file _) => visiting [] (take root options (index, 0) path.toList)
      | .ok (here, .directory entries) => visiting [⟨path.toList, here, sorted entries⟩] (index, 0)
      | .ok (_, .link _) => visiting [] (index, 0)
  | visiting [] taken => returned (.ok taken)
  | visiting (⟨_, _, []⟩ :: inside) taken => visiting inside taken
  | visiting (⟨path, here, (name, n) :: rest⟩ :: inside) taken =>
      visit root options (⟨path, here, rest⟩ :: inside) taken path name n
  | returned result => returned result

/-- The machine comes from one state to another in at most `n` steps. -/
def Reaches (n : Nat) (a b : Scanner) : Prop :=
  ∃ k ≤ n, (step root options)^[k] a = b

end Steps

section Runs

variable {root : FileNode} {options : ScanOptions} {m n : Nat} {a b c : Scanner}

theorem Reaches.refl (n : Nat) (a : Scanner) : Reaches root options n a a :=
  ⟨0, Nat.zero_le n, rfl⟩

theorem Reaches.trans (h : Reaches root options m a b) (h' : Reaches root options n b c) :
    Reaches root options (m + n) a c := by
  obtain ⟨j, hj, rfl⟩ := h
  obtain ⟨k, hk, rfl⟩ := h'
  refine ⟨k + j, by omega, ?_⟩
  rw [Function.iterate_add_apply]

theorem Reaches.mono (h : Reaches root options m a b) (le : m ≤ n) : Reaches root options n a b := by
  obtain ⟨k, hk, reached⟩ := h
  exact ⟨k, Nat.le_trans hk le, reached⟩

theorem Reaches.step (h : Reaches root options n (a.step root options) b) :
    Reaches root options (n + 1) a b := by
  obtain ⟨k, hk, reached⟩ := h
  exact ⟨k + 1, Nat.succ_le_succ hk, reached⟩

end Runs

/-! ## How much there is to visit -/

theorem size_le_of_lookup {entries : Entries} {name : FileName} {n : FileNode}
    (h : entries.lookup name = some n) : n.size ≤ sizes entries := by
  induction entries with
  | nil => cases h
  | cons e rest ih =>
      obtain ⟨other, k⟩ := e
      rw [List.lookup_cons] at h
      rw [sizes_cons]
      split at h
      · cases h
        exact Nat.le_add_right _ _
      · exact Nat.le_trans (ih h) (Nat.le_add_left _ _)

/-- Nothing in a tree is larger than the tree. -/
theorem size_le_of_at? {root n : FileNode} {here : Location} (h : root.at? here = some n) :
    n.size ≤ root.size := by
  induction here generalizing root with
  | nil =>
      cases h
      exact Nat.le_refl _
  | cons name rest ih =>
      obtain ⟨k, found, h⟩ := Option.bind_eq_some_iff.1 h
      refine Nat.le_trans (ih h) ?_
      cases root with
      | file content => cases found
      | link target => cases found
      | directory entries =>
          rw [size]
          exact Nat.le_succ_of_le (size_le_of_lookup found)

theorem sizes_lt_of_stat {root : FileNode} {path : List Char} {here : Location} {entries : Entries}
    (stat : Path.stat root path = .ok (here, .directory entries)) : sizes entries < root.size := by
  have le := size_le_of_at? (Path.stat_eq_ok_iff.1 stat).2
  rwa [size] at le

/-- The number of steps in which a walk visits entries of the size `m`, and everything that they lead
to, when it is outside of `k` directories and the whole tree has the size `s`. -/
def cost (s k m : Nat) : Nat :=
  2 * s ^ k * m

theorem cost_one (s k : Nat) : cost s k 1 = 2 * s ^ k :=
  Nat.mul_one _

theorem two_le_cost {s : Nat} (hs : 0 < s) (k : Nat) : 2 ≤ cost s k 1 := by
  rw [cost_one]
  exact Nat.mul_le_mul_left 2 (Nat.pow_pos hs)

theorem cost_add (s k m n : Nat) : cost s k (m + n) = cost s k m + cost s k n :=
  Nat.mul_add _ _ _

theorem one_le_cost {s : Nat} (hs : 0 < s) (k : Nat) {m : Nat} (hm : 0 < m) : 1 ≤ cost s k m :=
  Nat.mul_pos (Nat.mul_pos Nat.two_pos (Nat.pow_pos hs)) hm

/-- Going further down is paid for by the size of the directory. -/
theorem cost_down {s k k' : Nat} (hs : 0 < s) (le : k' ≤ k) (m : Nat) :
    cost s k' m + 2 ≤ cost s k (m + 1) := by
  have fewer : cost s k' m ≤ cost s k m :=
    Nat.mul_le_mul_right m (Nat.mul_le_mul_left 2 (Nat.pow_le_pow_right hs le))
  have := two_le_cost hs k
  rw [cost_add]
  omega

/-- Following a link is paid for by the directory that the walk is no longer outside of. -/
theorem cost_over {s k m : Nat} (less : m < s) : cost s k m + 2 ≤ cost s (k + 1) 1 := by
  have pos : 0 < s := Nat.zero_lt_of_lt less
  calc cost s k m + 2 ≤ cost s k (m + 1) := cost_down pos (Nat.le_refl k) m
    _ ≤ cost s k s := Nat.mul_le_mul_left _ less
    _ = cost s (k + 1) 1 := by rw [cost_one, cost, Nat.pow_succ, Nat.mul_assoc]

/-! ## One directory -/

section Visiting

open Walk (Outside walk_induct filesAmong)

variable {root : FileNode} {options : ScanOptions} {path : List Char} {here there : Location}
  {inside : List OpenDirectory} {name : FileName} {n : FileNode} {taken : Index × Nat}

theorem filesAmong_cons (skips : FileName → Bool) (outside : List Location) (name : FileName)
    (n : FileNode) (rest : Entries) :
    filesAmong root skips outside path here ((name, n) :: rest) =
      filesAmong root skips outside path here [(name, n)] ++
        filesAmong root skips outside path here rest := by
  rw [filesAmong.eq_def, filesAmong.eq_def root skips outside path here [(name, n)]]
  dsimp only
  rw [filesAmong, List.append_nil]

/-- An entry that leads to no directory is taken at once, if it is a file. -/
theorem visit_leaf {all : Entries} (stat : Path.stat root path = .ok (here, .directory all))
    (isName : Path.IsName name) (found : all.lookup name = some n)
    (leaf : ∀ there entries, Path.stat root (Path.join path name) ≠ .ok (there, .directory entries))
    (outside : List Location) :
    visit root options inside taken path name n = visiting inside
      ((filesAmong root options.skips outside path here [(name, n)]).foldl (take root options) taken) := by
  rw [filesAmong.eq_def]
  dsimp only
  rw [filesAmong, List.append_nil, visit]
  cases next : Path.stat root (Path.join path name) with
  | error cause => cases n <;> rfl
  | ok found' =>
      obtain ⟨there, m⟩ := found'
      have solid := Path.stat_join_solid stat isName found next
      cases m with
      | directory entries => exact absurd next (leaf there entries)
      | file content =>
          cases n with
          | file content' => rfl
          | directory entries => cases (solid (by simp)).2
          | link target => rfl
      | link target =>
          cases n with
          | file content => cases (solid (by simp)).2
          | directory entries => cases (solid (by simp)).2
          | link target' => rfl

/-- The files found in a directory that is entered are taken, and then the directory is left. -/
theorem entered_reaches {steps : Nat} {entries : Entries} {found : List (List Char)}
    (next : Path.stat root (Path.join path name) = .ok (there, .directory entries))
    (admits : n.isLink = true → there ∉ inside.map OpenDirectory.here)
    (inner : Reaches root options steps
      (visiting (⟨Path.join path name, there, sorted entries⟩ :: inside) taken)
      (visiting (⟨Path.join path name, there, []⟩ :: inside) (found.foldl (take root options) taken))) :
    Reaches root options (steps + 1) (visit root options inside taken path name n)
      (visiting inside ((if options.skips name then [] else found).foldl (take root options) taken)) := by
  have goes : ¬ (n.isLink = true ∧ ∃ d ∈ inside, d.here = there) :=
    fun ⟨linked, mem⟩ => admits linked (List.mem_map.2 mem)
  simp only [visit, next, if_neg goes]
  split
  · exact .refl _ _
  · exact inner.trans (.step (.refl 0 _))

/-- A link to a directory that the walk is inside of is not followed. -/
theorem visit_back {entries : Entries}
    (next : Path.stat root (Path.join path name) = .ok (there, .directory entries))
    (linked : n.isLink = true) (again : there ∈ inside.map OpenDirectory.here) :
    visit root options inside taken path name n = visiting inside taken := by
  simp only [visit, next]
  exact if_pos ⟨linked, List.mem_map.1 again⟩

/-- All entries of a directory are visited, and the files that the walk finds among them are taken. -/
theorem visiting_reaches (formed : root.IsFormed) {outside : List Location}
    (out : Outside root (here :: inside.map OpenDirectory.here) outside) {all : Entries}
    (stat : Path.stat root path = .ok (here, .directory all)) {entries : Entries}
    (held : ∀ e ∈ entries, e ∈ all) (taken : Index × Nat) :
    Reaches root options (cost root.size outside.length (sizes entries))
      (visiting (⟨path, here, entries⟩ :: inside) taken)
      (visiting (⟨path, here, []⟩ :: inside)
        ((filesAmong root options.skips outside path here entries).foldl (take root options) taken)) := by
  have pos : 0 < root.size := size_pos root
  induction outside, entries using walk_induct generalizing path here inside all taken with
  | nil outside =>
      rw [filesAmong]
      exact .refl _ _
  | cons outside name n rest others deeper overLink =>
      obtain ⟨mem, held⟩ := List.forall_mem_cons.1 held
      have dir := formed.at? (Path.stat_eq_ok_iff.1 stat).2
      have found := (lookup_eq_some_iff dir.distinct).2 mem
      have isName := dir.isName mem
      rw [filesAmong_cons, List.foldl_append, sizes_cons, cost_add]
      -- it remains to visit the first entry
      refine .trans ?_ (others out stat held _)
      suffices visited : ∃ steps, steps + 1 ≤ cost root.size outside.length n.size ∧
          Reaches root options steps (visit root options (⟨path, here, rest⟩ :: inside) taken path name n)
            (visiting (⟨path, here, rest⟩ :: inside)
              ((filesAmong root options.skips outside path here [(name, n)]).foldl (take root options)
                taken)) by
        obtain ⟨steps, le, visited⟩ := visited
        exact (Reaches.step visited).mono le
      by_cases leaf : ∀ there entries,
          Path.stat root (Path.join path name) ≠ .ok (there, .directory entries)
      · rw [visit_leaf stat isName found leaf outside]
        exact ⟨0, one_le_cost pos _ (size_pos n), .refl _ _⟩
      · simp only [not_forall, ne_eq, Classical.not_not] at leaf
        obtain ⟨there, entries, next⟩ := leaf
        have solid := Path.stat_join_solid stat isName found next
        have entered : Outside root (there :: (⟨path, here, rest⟩ :: inside).map OpenDirectory.here)
            (outside.erase there) := out.enter there
        have sorted_held : ∀ e ∈ sorted entries, e ∈ entries := fun _ => (sorted_perm entries).mem_iff.1
        rw [filesAmong.eq_def]
        dsimp only
        rw [filesAmong, List.append_nil, next]
        cases n with
        | file content => cases (solid (by simp)).2
        | directory entries' =>
            -- it may be one that the walk is inside of already, but it is smaller than this one
            obtain ⟨rfl, same⟩ := solid (by simp)
            cases same
            have down := deeper _ entries rfl entered next sorted_held taken
            refine ⟨_, ?_, entered_reaches next (fun linked => absurd linked (by simp [isLink])) down⟩
            rw [sizes_sorted, size]
            exact cost_down pos List.length_erase_le _
        | link target =>
            dsimp only
            split
            · next free =>
              -- what is behind the link may be larger, but there is one directory less to come to
              have outside_there := ((out.mem there).1 free).2
              have linked := overLink there entries free entered next sorted_held taken
              refine ⟨_, ?_, entered_reaches next (fun _ => outside_there) linked⟩
              rw [sizes_sorted, size, ← List.length_erase_add_one free]
              exact cost_over (sizes_lt_of_stat next)
            · next stuck =>
              have again : there ∈ (⟨path, here, rest⟩ :: inside).map OpenDirectory.here := by
                refine Decidable.not_not.1 fun other => stuck ((out.mem there).2 ⟨?_, other⟩)
                exact mem_directories formed (Path.stat_eq_ok_iff.1 next).2
              rw [visit_back next rfl again]
              exact ⟨0, one_le_cost pos _ (size_pos _), .refl _ _⟩

end Visiting

/-! ## Whole scans -/

/-- Files that are taken one after another are the documents among them, indexed and counted. -/
theorem foldl_take (root : FileNode) (options : ScanOptions) (paths : List (List Char)) (index : Index)
    (count : Nat) :
    let found := (paths.filter options.takes).filterMap fun p =>
      (Scan.read? root p).map fun text => (Path.toUri (.ofList p), text)
    paths.foldl (take root options) (index, count) =
      (found.foldl (fun index (uri, text) => (index.insert uri text).1) index, count + found.length) := by
  induction paths generalizing index count with
  | nil => rfl
  | cons p rest ih =>
      rw [List.foldl_cons, take]
      by_cases takes : options.takes p = true
      · rw [if_pos takes, List.filter_cons_of_pos takes, List.filterMap_cons]
        cases read : Scan.read? root p with
        | none => exact ih index count
        | some text =>
            refine (ih _ _).trans ?_
            simp only [Option.map_some, List.foldl_cons, List.length_cons]
            congr 1
            omega
      · rw [if_neg takes, List.filter_cons_of_neg takes]
        exact ih index count

theorem scan_of_files {index : Index} {root : FileNode} {options : ScanOptions} {path : String}
    {paths : List (List Char)} (files : Walk.files root options.skips path.toList = .ok paths) :
    index.scan root options path = .ok (paths.foldl (take root options) (index, 0)) := by
  rw [foldl_take, Nat.zero_add, Index.scan, Scan.documents, files]
  rfl

/-- A scan of a directory returns once everything in the directory has been visited. -/
theorem directory_reaches {root : FileNode} (formed : root.IsFormed) (index : Index)
    (options : ScanOptions) {path : String} {here : Location} {entries : Entries}
    (stat : Path.stat root path.toList = .ok (here, .directory entries)) :
    Reaches root options (2 * root.size ^ (root.directories []).length)
      (visiting [⟨path.toList, here, sorted entries⟩] (index, 0))
      (returned (index.scan root options path)) := by
  let outside := (root.directories []).erase here
  have out : Walk.Outside root [here] outside := by
    refine Walk.Outside.enter ⟨directories_nodup root formed [], fun there => ?_⟩ here
    rw [and_iff_left (by simp)]
  have inner : Reaches root options (cost root.size outside.length (sizes (sorted entries)))
      (visiting [⟨path.toList, here, sorted entries⟩] (index, 0)) (visiting [⟨path.toList, here, []⟩] _) :=
    visiting_reaches formed out stat (fun _ => (sorted_perm entries).mem_iff.1) (index, 0)
  have files : Walk.files root options.skips path.toList =
      .ok (Walk.filesAmong root options.skips outside path.toList here (sorted entries)) := by
    rw [Walk.files, stat]
    rfl
  have known : here ∈ root.directories [] := mem_directories formed (Path.stat_eq_ok_iff.1 stat).2
  have bound := cost_over (k := outside.length) (sizes_lt_of_stat stat)
  rw [List.length_erase_add_one known, cost_one] at bound
  rw [scan_of_files files]
  rw [sizes_sorted] at inner
  exact (inner.trans (.step (.step (.refl 0 _)))).mono bound

end Scanner

/-- However the links in a tree lead on, a scan visits one entry after another and then returns.  The
number of its steps is bounded by the size of the tree and the number of directories in it. -/
theorem Index.scan_returns {root : FileNode} (formed : root.IsFormed) (index : Index)
    (options : ScanOptions) (path : String) :
    ∃ n ≤ 2 * root.size ^ (root.directories []).length + 1,
      (Scanner.step root options)^[n] (.starting index path) =
        .returned (index.scan root options path) := by
  show Scanner.Reaches root options _ _ _
  have ample : 1 ≤ 2 * root.size ^ (root.directories []).length :=
    Nat.mul_pos Nat.two_pos (Nat.pow_pos (size_pos root))
  refine .step ?_
  rw [Scanner.step]
  cases stat : Path.stat root path.toList with
  | error cause =>
      have failed : index.scan root options path = .error ⟨path, cause⟩ := by
        rw [Index.scan, Scan.documents, Walk.files, stat]
        rfl
      rw [failed]
      exact .refl _ _
  | ok found =>
      obtain ⟨here, n⟩ := found
      cases n with
      | directory entries => exact Scanner.directory_reaches formed index options stat
      | file content =>
          have files : Walk.files root options.skips path.toList = .ok [path.toList] := by
            rw [Walk.files, stat]
            rfl
          rw [Scanner.scan_of_files files]
          exact (Scanner.Reaches.step (.refl 0 _)).mono ample
      | link target =>
          have files : Walk.files root options.skips path.toList = .ok [] := by
            rw [Walk.files, stat]
            rfl
          rw [Scanner.scan_of_files files]
          exact (Scanner.Reaches.step (.refl 0 _)).mono ample

/-- A directory with a link to the directory above, a link to itself and a link to nowhere. -/
def loopTree : FileNode :=
  .directory [
    ("work".toList, .directory [
      ("deep".toList, .directory [
        ("a.metta".toList, .file "(= a 1)".toUTF8),
        ("gone".toList, .link "nowhere".toList),
        ("self".toList, .link "self".toList),
        ("up".toList, .link "..".toList)])])]

theorem files_loopTree : Walk.files loopTree (ScanOptions.skips { passedOver := [] }) "work/deep".toList =
    .ok ["work/deep/a.metta".toList, "work/deep/up/deep/a.metta".toList] := by
  have order : sorted [
      ("a.metta".toList, .file "(= a 1)".toUTF8),
      ("gone".toList, .link "nowhere".toList),
      ("self".toList, .link "self".toList),
      ("up".toList, .link "..".toList)] = _ := sorted_eq_self (by decide)
  have alone (e : FileName × FileNode) : sorted [e] = [e] := sorted_eq_self (List.pairwise_singleton _ e)
  simp only [String.reduceToList, String.toUTF8_eq_toByteArray] at order
  simp [Walk.files, Walk.filesAmong.eq_def, directories, directoriesAmong, order, alone, loopTree,
    Path.stat, Path.resolve, Path.follow, Path.parts, Path.join, Path.isStay, Path.pathLimit,
    Path.nameLimit, Path.linkLimit, FileNode.at?, FileNode.entries, List.lookup_cons, byteLength,
    Char.utf8Size, Except.bind, Except.map, ScanOptions.skips]

/-- From below, the directory above is entered over the link, and then the one below again, as an entry
of it. -/
theorem Index.scan_returns_loopTree :
    loopTree.IsFormed ∧
      Walk.files loopTree (ScanOptions.skips { passedOver := [] }) "work/deep".toList =
        .ok ["work/deep/a.metta".toList, "work/deep/up/deep/a.metta".toList] ∧
      ∃ n ≤ 2 * 7 ^ 3 + 1,
        (Scanner.step loopTree { passedOver := [] })^[n] (.starting Index.empty "work/deep") =
          .returned (Index.empty.scan loopTree { passedOver := [] } "work/deep") := by
  have formed : loopTree.IsFormed := by
    simp only [loopTree, FileNode.IsFormed, FileNode.AreFormed]
    decide
  exact ⟨formed, files_loopTree,
    Index.scan_returns formed Index.empty { passedOver := [] } "work/deep"⟩

end MettaSyntax
