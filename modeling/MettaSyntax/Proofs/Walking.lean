import MettaSyntax.Proofs.ByteOrder
import MettaSyntax.Proofs.Resolution
import MettaSyntax.Workspace.Walk

/-! # What a walk finds

A walk through a directory finds the ways on from it that lead to files, each once and in the order of
their names.  A way does not go through directories that are passed over, and no link on it leads back
to a directory that the way is already inside of. -/

set_option autoImplicit false

namespace MettaSyntax

/-! ## The order of names -/

namespace FileNode

theorem nameLe_cons_iff (a b : Char) (as bs : FileName) :
    nameLe (a :: as) (b :: bs) = true ↔ a < b ∨ a = b ∧ nameLe as bs = true := by
  have less : a < b ↔ a.toNat < b.toNat := Iff.rfl
  by_cases same : a = b
  · simp [nameLe, same]
  · simp [nameLe, same, less]

theorem nameLe_trans {a b c : FileName} (h : nameLe a b = true) (k : nameLe b c = true) :
    nameLe a c = true := by
  induction a generalizing b c with
  | nil => rfl
  | cons x as ih =>
      cases b with
      | nil => cases h
      | cons y bs =>
          cases c with
          | nil => cases k
          | cons z cs =>
              rw [nameLe_cons_iff] at h k ⊢
              rcases h with less | ⟨rfl, h⟩
              · rcases k with less' | ⟨rfl, -⟩
                · exact .inl (Char.lt_trans less less')
                · exact .inl less
              · rcases k with less' | ⟨rfl, k⟩
                · exact .inl less'
                · exact .inr ⟨rfl, ih h k⟩

theorem nameLe_total (a b : FileName) : nameLe a b = true ∨ nameLe b a = true := by
  fun_induction nameLe a b with
  | case1 b => exact .inl rfl
  | case2 a as => exact .inr rfl
  | case3 as b bs ih => simpa [nameLe_cons_iff] using ih
  | case4 a as b bs differ =>
      simp only [nameLe_cons_iff, Ne.symm differ, false_and, or_false, decide_eq_true_eq]
      exact Nat.lt_or_gt_of_ne fun same => differ (Char.toNat_inj.1 same)

/-- Names are in the order of their characters. -/
theorem lt_of_nameLe {a b : FileName} (h : nameLe a b = true) (ne : a ≠ b) : a < b := by
  induction a generalizing b with
  | nil =>
      cases b with
      | nil => exact absurd rfl ne
      | cons y bs => exact List.nil_lt_cons _ _
  | cons x as ih =>
      cases b with
      | nil => cases h
      | cons y bs =>
          refine List.cons_lt_cons_iff.2 ?_
          rcases (nameLe_cons_iff x y as bs).1 h with less | ⟨rfl, le⟩
          · exact .inl less
          · exact .inr ⟨rfl, ih le fun same => ne (by rw [same])⟩

theorem sorted_perm (entries : Entries) : (sorted entries).Perm entries :=
  List.mergeSort_perm _ _

/-- Entries that are in the order of their names stay where they are. -/
theorem sorted_eq_self {entries : Entries} (h : entries.Pairwise fun e f => nameLe e.1 f.1 = true) :
    sorted entries = entries :=
  List.mergeSort_of_pairwise h

/-- The entries of a directory that does not hold a name twice are put in the strict order of names. -/
theorem sorted_ascend {entries : Entries} (distinct : (entries.map Prod.fst).Nodup) :
    (sorted entries).Pairwise fun e f => e.1 < f.1 := by
  have ascend : (sorted entries).Pairwise fun e f => nameLe e.1 f.1 = true := by
    refine List.pairwise_mergeSort (fun e f g => ?_) (fun e f => ?_) entries
    · exact nameLe_trans
    · rw [Bool.or_eq_true]
      exact nameLe_total e.1 f.1
  have apart : (sorted entries).Pairwise fun e f => e.1 ≠ f.1 :=
    List.pairwise_map.1 (((sorted_perm entries).map Prod.fst).nodup_iff.2 distinct)
  exact ascend.imp₂ (fun _ _ => lt_of_nameLe) apart

end FileNode

namespace Walk

open FileNode

/-- One way comes before another one in the order of their names, compared by their bytes. -/
def Before (xs ys : List FileName) : Prop :=
  xs.map (fun name => utf8Bytes (.ofList name)) < ys.map (fun name => utf8Bytes (.ofList name))

theorem before_of_lt {a b : FileName} (h : a < b) (xs ys : List FileName) :
    Before (a :: xs) (b :: ys) := by
  refine List.cons_lt_cons_iff.2 (.inl ?_)
  show utf8Bytes (.ofList a) < utf8Bytes (.ofList b)
  rw [utf8Bytes_eq, utf8Bytes_eq, String.toList_ofList, String.toList_ofList]
  exact flatMap_utf8EncodeChar_lt h

theorem before_cons (name : FileName) {xs ys : List FileName} (h : Before xs ys) :
    Before (name :: xs) (name :: ys) :=
  List.cons_lt_cons_iff.2 (.inr ⟨rfl, h⟩)

theorem Before.ne {xs ys : List FileName} (h : Before xs ys) : xs ≠ ys := by
  rintro rfl
  exact List.lt_irrefl _ h

/-! ## Ways -/

section Ways

variable (root : FileNode) (skips : FileName → Bool)

/-- Under a name in the directory to which a path leads is a link. -/
def IsLink (path : List Char) (name : FileName) : Prop :=
  ∃ here entries target, Path.stat root path = .ok (here, .directory entries) ∧
    entries.lookup name = some (.link target)

variable {root} in
theorem not_isLink {path : List Char} {name : FileName} {here : Location} {entries : Entries}
    {n : FileNode} (stat : Path.stat root path = .ok (here, .directory entries))
    (found : entries.lookup name = some n) (solid : ∀ target, n ≠ .link target) :
    ¬ IsLink root path name := by
  rintro ⟨here', entries', target, stat', found'⟩
  rw [stat] at stat'
  cases stat'
  rw [found] at found'
  cases found'
  exact solid target rfl

/-- Names lead on from a path to a file.  No directory on the way is passed over, and no link on it
leads to a directory at `above` or on the way. -/
def Reaches : List Location → List Char → List FileName → Prop
  | _, path, [] => ∃ here content, Path.stat root path = .ok (here, .file content)
  | above, path, name :: rest =>
      Path.IsName name ∧ ∃ there n, Path.stat root (Path.join path name) = .ok (there, n) ∧
        (n.isDirectory = true → skips name = false ∧ (IsLink root path name → there ∉ above)) ∧
        Reaches (there :: above) (Path.join path name) rest

/-- Paths are those of all the ways on from a path by one of the names, in order. -/
def Covers (above : List Location) (path : List Char) (names : List FileName)
    (paths : List (List Char)) : Prop :=
  ∃ ways : List (List FileName), paths = ways.map (Path.below path) ∧ ways.Pairwise Before ∧
    ∀ way, way ∈ ways ↔ ∃ name ∈ names, ∃ rest, way = name :: rest ∧ Reaches root skips above path way

variable {root skips} {above : List Location} {path : List Char} {name : FileName}

theorem Covers.nil : Covers root skips above path [] [] :=
  ⟨[], rfl, .nil, by simp⟩

theorem Covers.cons {names : List FileName} {ps qs : List (List Char)}
    (first : Covers root skips above path [name] ps) (rest : Covers root skips above path names qs)
    (less : ∀ other ∈ names, name < other) :
    Covers root skips above path (name :: names) (ps ++ qs) := by
  obtain ⟨xs, rfl, orderedX, waysX⟩ := first
  obtain ⟨ys, rfl, orderedY, waysY⟩ := rest
  refine ⟨xs ++ ys, (List.map_append ..).symm, List.pairwise_append.2 ⟨orderedX, orderedY, ?_⟩, ?_⟩
  · intro x hx y hy
    obtain ⟨_, here, more, rfl, -⟩ := (waysX x).1 hx
    obtain ⟨other, later, more', rfl, -⟩ := (waysY y).1 hy
    rw [List.mem_singleton.1 here]
    exact before_of_lt (less other later) _ _
  · intro way
    rw [List.mem_append, waysX, waysY]
    simp only [List.mem_cons, List.not_mem_nil, or_false, exists_eq_left, or_and_right, exists_or]

/-- Nothing is found under a name from which no way goes on. -/
theorem Covers.none (h : ∀ rest, ¬ Reaches root skips above path (name :: rest)) :
    Covers root skips above path [name] [] := by
  refine ⟨[], rfl, .nil, fun way => ?_⟩
  simp only [List.not_mem_nil, List.mem_singleton, exists_eq_left, false_iff, not_exists, not_and]
  rintro rest rfl
  exact h rest

/-- A way goes on from a directory only, and by a name in it. -/
theorem Reaches.entry {rest : List FileName} (h : Reaches root skips above path (name :: rest))
    {here : Location} {n : FileNode} (stat : Path.stat root path = .ok (here, n)) :
    ∃ entries m, n = .directory entries ∧ entries.lookup name = some m := by
  obtain ⟨isName, there, k, next, -⟩ := h
  obtain ⟨above, entries, m, dir, found, -⟩ := Path.stat_join (Path.ne_nil_of_stat stat) isName next
  rw [stat] at dir
  cases dir
  exact ⟨entries, m, rfl, found⟩

section At

variable {way : List FileName} (h : Reaches root skips above path way) {here : Location}
include h

theorem Reaches.eq_nil {content : ByteArray} (stat : Path.stat root path = .ok (here, .file content)) :
    way = [] := by
  cases way with
  | nil => rfl
  | cons name rest =>
      obtain ⟨entries, m, directory, -⟩ := h.entry stat
      cases directory

theorem Reaches.exists_cons {entries : Entries}
    (stat : Path.stat root path = .ok (here, .directory entries)) :
    ∃ name ∈ (sorted entries).map Prod.fst, ∃ rest, way = name :: rest := by
  cases way with
  | nil =>
      obtain ⟨there, content, file⟩ := h
      rw [stat] at file
      cases file
  | cons name rest =>
      obtain ⟨all, m, directory, found⟩ := h.entry stat
      cases directory
      have mem := ((sorted_perm entries).map Prod.fst).mem_iff.2 (mem_names_of_lookup found)
      exact ⟨name, mem, rest, rfl⟩

/-- No way goes on from what a path does not lead through. -/
theorem Reaches.ne_link {target : List Char} : Path.stat root path ≠ .ok (here, .link target) := by
  intro stat
  cases way with
  | nil =>
      obtain ⟨there, content, file⟩ := h
      rw [stat] at file
      cases file
  | cons name rest =>
      obtain ⟨entries, m, directory, -⟩ := h.entry stat
      cases directory

end At

/-- Under a name that leads to a file, the one way ends there. -/
theorem Covers.file (isName : Path.IsName name) {there : Location} {content : ByteArray}
    (stat : Path.stat root (Path.join path name) = .ok (there, .file content)) :
    Covers root skips above path [name] [Path.join path name] := by
  refine ⟨[[name]], rfl, List.pairwise_singleton _ _, fun way => ?_⟩
  simp only [List.mem_singleton, exists_eq_left]
  constructor
  · rintro rfl
    refine ⟨[], rfl, isName, there, _, stat, ?_, there, content, stat⟩
    exact fun directory => absurd directory Bool.false_ne_true
  · rintro ⟨rest, rfl, -, there', n, -, -, onward⟩
    rw [onward.eq_nil stat]

/-- Nothing is found under a name that leads neither to a file nor to a directory. -/
theorem Covers.nothing
    (file : ∀ there content, Path.stat root (Path.join path name) ≠ .ok (there, .file content))
    (directory : ∀ there entries,
      Path.stat root (Path.join path name) ≠ .ok (there, .directory entries)) :
    Covers root skips above path [name] [] := by
  refine .none fun rest => ?_
  rintro ⟨-, there, n, stat, -, onward⟩
  cases n with
  | file content => exact file there content stat
  | directory entries => exact directory there entries stat
  | link target => exact onward.ne_link stat

section Entering

variable {there : Location} {entries : Entries}
  (stat : Path.stat root (Path.join path name) = .ok (there, .directory entries))
include stat

/-- No way leads through a directory that is passed over. -/
theorem Covers.skip (skip : skips name = true) : Covers root skips above path [name] [] := by
  refine .none fun rest => ?_
  rintro ⟨-, there', n, stat', admits, -⟩
  rw [stat] at stat'
  cases stat'
  have enters : skips name = false := (admits rfl).1
  rw [skip] at enters
  cases enters

/-- No way leads over a link back to a directory that it is inside of. -/
theorem Covers.back (link : IsLink root path name) (inside : there ∈ above) :
    Covers root skips above path [name] [] := by
  refine .none fun rest => ?_
  rintro ⟨-, there', n, stat', admits, -⟩
  rw [stat] at stat'
  cases stat'
  exact (admits rfl).2 link inside

/-- Under a name that leads to a directory, the ways are those that go on from there. -/
theorem Covers.enter (isName : Path.IsName name) (enters : skips name = false)
    (outside : IsLink root path name → there ∉ above) {ps : List (List Char)}
    (deeper : Covers root skips (there :: above) (Path.join path name)
      ((sorted entries).map Prod.fst) ps) :
    Covers root skips above path [name] ps := by
  obtain ⟨ways, rfl, ordered, complete⟩ := deeper
  refine ⟨ways.map (name :: ·), ?_, ?_, fun way => ?_⟩
  · rw [List.map_map]
    rfl
  · exact List.pairwise_map.2 (ordered.imp (before_cons name))
  · simp only [List.mem_map, List.mem_singleton, exists_eq_left]
    constructor
    · rintro ⟨rest, mem, rfl⟩
      obtain ⟨other, -, more, rfl, onward⟩ := (complete rest).1 mem
      exact ⟨_, rfl, isName, there, _, stat, fun _ => ⟨enters, outside⟩, onward⟩
    · rintro ⟨rest, rfl, -, there', n, stat', -, onward⟩
      rw [stat] at stat'
      cases stat'
      obtain ⟨other, mem, more, rfl⟩ := onward.exists_cons stat
      exact ⟨_, (complete _).2 ⟨other, mem, more, rfl, onward⟩, rfl⟩

theorem Covers.directory (isName : Path.IsName name) (outside : IsLink root path name → there ∉ above)
    {ps : List (List Char)}
    (deeper : Covers root skips (there :: above) (Path.join path name)
      ((sorted entries).map Prod.fst) ps) :
    Covers root skips above path [name] (if skips name then [] else ps) := by
  split
  · next skip => exact .skip stat skip
  · next enters => exact .enter stat isName (Bool.eq_false_iff.2 enters) outside deeper

end Entering

end Ways

/-! ## The walk -/

/-- A walk goes on to the later entries, from a directory into a smaller one, and to a directory that it
was not inside of. -/
theorem walk_induct {motive : List Location → Entries → Prop} (nil : ∀ outside, motive outside [])
    (cons : ∀ outside name n rest, motive outside rest →
      (∀ there entries, n = .directory entries → motive (outside.erase there) (sorted entries)) →
      (∀ there entries, there ∈ outside → motive (outside.erase there) (sorted entries)) →
      motive outside ((name, n) :: rest))
    (outside : List Location) (entries : Entries) : motive outside entries := by
  match entries with
  | [] => exact nil outside
  | (name, n) :: rest =>
      refine cons outside name n rest (walk_induct nil cons outside rest) ?_ ?_
      · intro there entries directory
        exact walk_induct nil cons (outside.erase there) (sorted entries)
      · intro there entries free
        exact walk_induct nil cons (outside.erase there) (sorted entries)
  termination_by (outside.length, sizes entries)
  decreasing_by
    · refine Prod.Lex.right _ ?_
      rw [sizes_cons]
      have := size_pos n
      omega
    · have shrinks : (outside.erase there).length ≤ outside.length := List.length_erase_le
      rcases Nat.lt_or_eq_of_le shrinks with less | same
      · exact Prod.Lex.left _ _ less
      · rw [same]
        refine Prod.Lex.right _ ?_
        rw [sizes_sorted, sizes_cons, directory, size]
        omega
    · refine Prod.Lex.left _ _ ?_
      rw [List.length_erase_of_mem free]
      have := List.length_pos_of_mem free
      omega

/-- The directories that a walk is not inside of, where it is inside of those at `above`. -/
structure Outside (root : FileNode) (above outside : List Location) : Prop where
  nodup : outside.Nodup
  mem : ∀ there, there ∈ outside ↔ there ∈ root.directories [] ∧ there ∉ above

theorem Outside.enter {root : FileNode} {above outside : List Location}
    (h : Outside root above outside) (there : Location) :
    Outside root (there :: above) (outside.erase there) where
  nodup := h.nodup.erase there
  mem other := by
    rw [h.nodup.mem_erase_iff, h.mem, List.mem_cons, not_or]
    exact and_left_comm

variable {root : FileNode} {skips : FileName → Bool}

/-- The entries of a directory to which a path leads are walked through in order. -/
theorem ascend_of_stat (formed : root.IsFormed) {path : List Char} {here : Location} {entries : Entries}
    (stat : Path.stat root path = .ok (here, .directory entries)) :
    (sorted entries).Pairwise fun e f => e.1 < f.1 :=
  sorted_ascend (formed.at? (Path.stat_eq_ok_iff.1 stat).2).distinct

/-- What a walk finds among entries of a directory are the ways on by their names. -/
theorem filesAmong_covers (formed : root.IsFormed) {above outside : List Location}
    (out : Outside root above outside) {path : List Char} {here : Location} {all : Entries}
    (stat : Path.stat root path = .ok (here, .directory all)) {entries : Entries}
    (held : ∀ e ∈ entries, e ∈ all) (ascend : entries.Pairwise fun e f => e.1 < f.1) :
    Covers root skips above path (entries.map Prod.fst)
      (filesAmong root skips outside path here entries) := by
  induction outside, entries using walk_induct generalizing above path here all with
  | nil outside =>
      rw [filesAmong]
      exact .nil
  | cons outside name n rest others inside overLink =>
      obtain ⟨less, ascend⟩ := List.pairwise_cons.1 ascend
      obtain ⟨mem, held⟩ := List.forall_mem_cons.1 held
      have dir := formed.at? (Path.stat_eq_ok_iff.1 stat).2
      have isName := dir.isName mem
      have found := (lookup_eq_some_iff dir.distinct).2 mem
      have later : ∀ other ∈ rest.map Prod.fst, name < other := List.forall_mem_map.2 less
      rw [filesAmong.eq_def]
      dsimp only
      refine .cons ?_ (others out stat held ascend) later
      cases next : Path.stat root (Path.join path name) with
      | error cause =>
          have nothing : Covers root skips above path [name] [] :=
            .nothing (by simp [next]) (by simp [next])
          cases n <;> exact nothing
      | ok found' =>
          obtain ⟨there, m⟩ := found'
          have solid := Path.stat_join_solid stat isName found next
          cases n with
          | file content =>
              obtain ⟨rfl, rfl⟩ := solid (by simp)
              exact .file isName next
          | directory entries =>
              obtain ⟨rfl, rfl⟩ := solid (by simp)
              -- only a link can lead back, so this directory is entered unchecked
              refine .directory next isName (fun link => absurd link (not_isLink stat found (by simp))) ?_
              exact inside _ entries rfl (out.enter _) next (fun _ => (sorted_perm entries).mem_iff.1)
                (ascend_of_stat formed next)
          | link target =>
              have link : IsLink root path name := ⟨here, all, target, stat, found⟩
              cases m with
              | file content => exact .file isName next
              | link target' => exact .nothing (by simp [next]) (by simp [next])
              | directory entries =>
                  dsimp only
                  split
                  · next free =>
                    refine .directory next isName (fun _ => ((out.mem there).1 free).2) ?_
                    exact overLink there entries free (out.enter there) next
                      (fun _ => (sorted_perm entries).mem_iff.1) (ascend_of_stat formed next)
                  · next held =>
                    have dir : there ∈ root.directories [] :=
                      mem_directories formed (Path.stat_eq_ok_iff.1 next).2
                    refine .back next link (Decidable.not_not.1 fun other => ?_)
                    exact held ((out.mem there).2 ⟨dir, other⟩)

/-- A walk finds the ways on from its path that lead to files, in order. -/
theorem files_eq (formed : root.IsFormed) (skips : FileName → Bool) {path : List Char}
    {here : Location} {n : FileNode} (stat : Path.stat root path = .ok (here, n)) :
    ∃ ways : List (List FileName), files root skips path = .ok (ways.map (Path.below path)) ∧
      ways.Pairwise Before ∧ ∀ way, way ∈ ways ↔ Reaches root skips [here] path way := by
  rw [files, stat]
  cases n with
  | file content =>
      refine ⟨[[]], rfl, List.pairwise_singleton _ _, fun way => ?_⟩
      rw [List.mem_singleton]
      constructor
      · rintro rfl
        exact ⟨here, content, stat⟩
      · exact fun onward => onward.eq_nil stat
  | directory entries =>
      have out : Outside root [here] ((root.directories []).erase here) := by
        refine Outside.enter ⟨directories_nodup root formed [], fun there => ?_⟩ here
        rw [and_iff_left (by simp)]
      have covers : Covers root skips [here] path ((sorted entries).map Prod.fst) _ :=
        filesAmong_covers formed out stat (fun _ => (sorted_perm entries).mem_iff.1)
          (ascend_of_stat formed stat)
      obtain ⟨ways, found, ordered, complete⟩ := covers
      refine ⟨ways, congrArg _ found, ordered, fun way => (complete way).trans ⟨?_, fun onward => ?_⟩⟩
      · rintro ⟨name, -, rest, -, onward⟩
        exact onward
      · obtain ⟨name, mem, rest, eq⟩ := onward.exists_cons stat
        exact ⟨name, mem, rest, eq, onward⟩
  | link target =>
      exact ⟨[], rfl, .nil, fun way => iff_of_false List.not_mem_nil fun onward => onward.ne_link stat⟩

end Walk

end MettaSyntax
