import MettaSyntax.Workspace.Resolve

/-! # Where paths lead

In a file tree whose directories hold names, each once, a path can go on by a name only from a directory,
and then leads to what the directory holds under the name, unless that is a link.  Every directory has
one location. -/

set_option autoImplicit false

namespace MettaSyntax

namespace Path

/-- What may stand as a name in a directory. -/
structure IsName (name : FileName) : Prop where
  moves : isStay name = false
  down : name ≠ ['.', '.']
  whole : '/' ∉ name

instance (name : FileName) : Decidable (IsName name) :=
  decidable_of_iff (isStay name = false ∧ name ≠ ['.', '.'] ∧ '/' ∉ name)
    ⟨fun ⟨moves, down, whole⟩ => ⟨moves, down, whole⟩, fun ⟨moves, down, whole⟩ => ⟨moves, down, whole⟩⟩

/-- The path that leads on from a path by names. -/
def below (path : List Char) (names : List FileName) : List Char :=
  names.foldl join path

end Path

namespace FileNode

mutual

/-- Each directory in the tree holds names, and none of them twice. -/
def IsFormed : FileNode → Prop
  | .directory entries => (entries.map Prod.fst).Nodup ∧ AreFormed entries
  | .file _ => True
  | .link _ => True

def AreFormed : List (FileName × FileNode) → Prop
  | [] => True
  | (name, n) :: rest => Path.IsName name ∧ IsFormed n ∧ AreFormed rest

end

theorem areFormed_iff {entries : Entries} :
    AreFormed entries ↔ ∀ e ∈ entries, Path.IsName e.1 ∧ e.2.IsFormed := by
  induction entries with
  | nil => simp [AreFormed]
  | cons e rest ih =>
      obtain ⟨name, n⟩ := e
      rw [AreFormed, ih, List.forall_mem_cons, and_assoc]

theorem IsFormed.distinct {entries : Entries} (h : (directory entries).IsFormed) :
    (entries.map Prod.fst).Nodup :=
  h.1

theorem IsFormed.isName {entries : Entries} (h : (directory entries).IsFormed) {name : FileName}
    {n : FileNode} (hn : (name, n) ∈ entries) : Path.IsName name :=
  (areFormed_iff.1 h.2 _ hn).1

theorem lookup_eq_some_iff {entries : Entries} (distinct : (entries.map Prod.fst).Nodup)
    {name : FileName} {n : FileNode} : entries.lookup name = some n ↔ (name, n) ∈ entries := by
  induction entries with
  | nil => simp
  | cons entry rest ih =>
      obtain ⟨other, m⟩ := entry
      obtain ⟨absent, later⟩ := List.nodup_cons.1 distinct
      by_cases same : name = other
      · subst same
        have none : (name, n) ∉ rest := fun hn => absent (List.mem_map.2 ⟨_, hn, rfl⟩)
        simp [none, eq_comm]
      · simp [List.lookup_cons, beq_false_of_ne same, same, ih later]

theorem IsFormed.lookup {entries : Entries} (h : (directory entries).IsFormed) {name : FileName}
    {n : FileNode} (found : entries.lookup name = some n) : n.IsFormed :=
  (areFormed_iff.1 h.2 _ ((lookup_eq_some_iff h.distinct).1 found)).2

theorem mem_names_of_lookup {entries : Entries} {name : FileName} {n : FileNode}
    (h : entries.lookup name = some n) : name ∈ entries.map Prod.fst := by
  obtain ⟨entry, mem, same⟩ := List.lookup_isSome_iff.1 (Option.isSome_of_eq_some h)
  exact List.mem_map.2 ⟨entry, mem, (eq_of_beq same).symm⟩

/-! ## Locations -/

@[simp] theorem at?_nil (n : FileNode) : n.at? [] = some n := rfl

theorem at?_append (n : FileNode) (here rest : Location) :
    n.at? (here ++ rest) = (n.at? here).bind (·.at? rest) := by
  induction here generalizing n with
  | nil => rfl
  | cons name here ih =>
      simp only [List.cons_append, at?]
      cases n.entries.lookup name with
      | none => rfl
      | some m => exact ih m

theorem at?_append_name {root : FileNode} {here : Location} {entries : Entries}
    (h : root.at? here = some (.directory entries)) (name : FileName) :
    root.at? (here ++ [name]) = entries.lookup name := by
  rw [at?_append, h, Option.bind_some]
  simp [at?, FileNode.entries]

theorem IsFormed.at? {root n : FileNode} (h : root.IsFormed) {here : Location}
    (hn : root.at? here = some n) : n.IsFormed := by
  induction here generalizing root with
  | nil =>
      cases hn
      exact h
  | cons name here ih =>
      obtain ⟨m, found, deeper⟩ := Option.bind_eq_some_iff.1 hn
      cases root with
      | directory entries =>
          exact ih (h.lookup found) deeper
      | file content => cases found
      | link target => cases found

/-! ## The directories of a tree -/

mutual

/-- The locations of directories begin with the location of the tree. -/
theorem prefix_of_mem_directories (n : FileNode) {here there : Location}
    (h : there ∈ directories here n) : here <+: there := by
  match n with
  | .file _ => cases h
  | .link _ => cases h
  | .directory entries =>
      rw [directories] at h
      rcases List.mem_cons.1 h with rfl | h
      · exact List.prefix_rfl
      · obtain ⟨name, -, rest⟩ := prefix_of_mem_directoriesAmong entries h
        exact (List.prefix_append here [name]).trans rest

theorem prefix_of_mem_directoriesAmong (entries : List (FileName × FileNode)) {here there : Location}
    (h : there ∈ directoriesAmong here entries) :
    ∃ name ∈ entries.map Prod.fst, here ++ [name] <+: there := by
  match entries with
  | [] => cases h
  | (name, n) :: rest =>
      rw [directoriesAmong] at h
      rcases List.mem_append.1 h with h | h
      · exact ⟨name, List.mem_cons_self, prefix_of_mem_directories n h⟩
      · obtain ⟨other, among, longer⟩ := prefix_of_mem_directoriesAmong rest h
        exact ⟨other, List.mem_cons_of_mem _ among, longer⟩

end

/-- Locations that go on by different names differ. -/
theorem name_eq_of_prefix {here there : Location} {name other : FileName}
    (h : here ++ [name] <+: there) (k : here ++ [other] <+: there) : name = other := by
  have same := (List.prefix_of_prefix_length_le h k (by simp)).eq_of_length (by simp)
  simpa using same

mutual

/-- No location is that of two directories. -/
theorem directories_nodup (n : FileNode) (h : n.IsFormed) (here : Location) :
    (directories here n).Nodup := by
  match n with
  | .file _ => exact List.nodup_nil
  | .link _ => exact List.nodup_nil
  | .directory entries =>
      rw [directories, List.nodup_cons]
      refine ⟨fun again => ?_, directoriesAmong_nodup entries h.distinct h.2 here⟩
      obtain ⟨name, -, longer⟩ := prefix_of_mem_directoriesAmong entries again
      have length := longer.length_le
      rw [List.length_append, List.length_singleton] at length
      omega

theorem directoriesAmong_nodup (entries : List (FileName × FileNode))
    (distinct : (entries.map Prod.fst).Nodup) (h : AreFormed entries) (here : Location) :
    (directoriesAmong here entries).Nodup := by
  match entries with
  | [] => exact List.nodup_nil
  | (name, n) :: rest =>
      obtain ⟨absent, distinct⟩ := List.nodup_cons.1 distinct
      rw [directoriesAmong, List.nodup_append]
      refine ⟨directories_nodup n h.2.1 _, directoriesAmong_nodup rest distinct h.2.2 here, ?_⟩
      rintro there first _ second rfl
      obtain ⟨other, among, longer⟩ := prefix_of_mem_directoriesAmong rest second
      have same : name = other := name_eq_of_prefix (prefix_of_mem_directories n first) longer
      exact absent (same ▸ among)

end

theorem mem_directoriesAmong {entries : Entries} {name : FileName} {n : FileNode}
    (hn : (name, n) ∈ entries) {here there : Location} (h : there ∈ directories (here ++ [name]) n) :
    there ∈ directoriesAmong here entries := by
  induction entries with
  | nil => cases hn
  | cons entry rest ih =>
      rw [directoriesAmong, List.mem_append]
      rcases List.mem_cons.1 hn with rfl | hn
      · exact .inl h
      · exact .inr (ih hn)

/-- Every directory is among the directories. -/
theorem mem_directories {n : FileNode} (h : n.IsFormed) {here rest : Location} {entries : Entries}
    (found : n.at? rest = some (.directory entries)) : here ++ rest ∈ directories here n := by
  induction rest generalizing n here with
  | nil =>
      cases found
      simp [directories]
  | cons name rest ih =>
      obtain ⟨m, lookup, deeper⟩ := Option.bind_eq_some_iff.1 found
      cases n with
      | directory all =>
          have below : here ++ [name] ++ rest ∈ directories (here ++ [name]) m :=
            ih (h.lookup lookup) deeper
          rw [directories, List.mem_cons]
          refine .inr (mem_directoriesAmong ((lookup_eq_some_iff h.distinct).1 lookup) ?_)
          simpa using below
      | file content => cases lookup
      | link target => cases lookup

end FileNode

namespace Path

/-! ## The parts of a path -/

theorem parts_ne_nil (path : List Char) : parts path ≠ [] := by
  fun_cases parts path <;> simp

theorem parts_append (xs ys : List Char) : parts (xs ++ '/' :: ys) = parts xs ++ parts ys := by
  induction xs using parts.induct with
  | case1 => rfl
  | case2 rest ih => simp [parts, ih]
  | case3 c rest slash none ih => exact absurd none (parts_ne_nil rest)
  | case4 c rest slash part more some ih =>
      rw [List.cons_append, parts, parts, ih, some]
      · rfl
      · exact slash
      · exact slash

theorem parts_eq_singleton {name : List Char} (h : '/' ∉ name) : parts name = [name] := by
  induction name with
  | nil => rfl
  | cons c name ih =>
      rw [List.mem_cons, not_or] at h
      rw [parts, ih h.2]
      exact fun slash => h.1 slash.symm

/-- The parts of a path that goes on by a name are those of the path, but for an empty last one, and
the name. -/
theorem parts_join {path : List Char} (hp : path ≠ []) {name : FileName} (h : IsName name) :
    ∃ ps, parts (join path name) = ps ++ [name] ∧ (parts path = ps ∨ parts path = ps ++ [[]]) := by
  unfold join
  split
  · next ends =>
      have last : path.getLast? = some '/' := by simpa [hp] using ends
      obtain ⟨ps, rfl⟩ := List.getLast?_eq_some_iff.1 last
      refine ⟨parts ps, ?_, .inr (parts_append ps [])⟩
      rw [List.append_assoc, List.singleton_append, parts_append, parts_eq_singleton h.whole]
  · exact ⟨parts path, by rw [parts_append, parts_eq_singleton h.whole], .inl rfl⟩

theorem prefix_join (path name : List Char) : path <+: join path name := by
  unfold join
  split
  · exact List.prefix_append _ _
  · exact List.prefix_append _ _

theorem IsName.ne_nil {name : FileName} (h : IsName name) : name ≠ [] := by
  rintro rfl
  exact absurd h.moves (by decide)

@[simp] theorem below_nil (path : List Char) : below path [] = path := rfl

@[simp] theorem below_cons (path : List Char) (name : FileName) (names : List FileName) :
    below path (name :: names) = below (join path name) names := rfl

theorem join_ne_nil {path : List Char} (hp : path ≠ []) (name : FileName) : join path name ≠ [] :=
  (prefix_join path name).ne_nil hp

/-- The names by which a path goes on are its last parts, but for empty ones. -/
theorem parts_below {path : List Char} (hp : path ≠ []) {names : List FileName}
    (h : ∀ name ∈ names, IsName name) :
    (parts (below path names)).filter (· ≠ []) = (parts path).filter (· ≠ []) ++ names := by
  induction names generalizing path with
  | nil => simp
  | cons name names ih =>
      obtain ⟨isName, rest⟩ := List.forall_mem_cons.1 h
      obtain ⟨ps, joined, eq⟩ := parts_join hp isName
      have same : (parts path).filter (· ≠ []) = ps.filter (· ≠ []) := by
        rcases eq with eq | eq
        · rw [eq]
        · simp [eq]
      rw [below_cons, ih (join_ne_nil hp name) rest, joined, same]
      simp [isName.ne_nil]

theorem below_injective {path : List Char} (hp : path ≠ []) {xs ys : List FileName}
    (hx : ∀ name ∈ xs, IsName name) (hy : ∀ name ∈ ys, IsName name)
    (h : below path xs = below path ys) : xs = ys := by
  have partsX := parts_below hp hx
  rw [h, parts_below hp hy] at partsX
  exact (List.append_cancel_left partsX).symm

/-! ## Following -/

section Following

variable (root : FileNode)

/-- One part of a path leads from a directory on to a location with so many links left, and with the
parts of a link's target before what follows. -/
inductive Step : Nat → Location → List Char → Nat → Location → List (List Char) → Prop where
  | stay {links : Nat} {here : Location} {part : List Char} {entries : Entries}
      (dir : root.at? here = some (.directory entries)) (stays : isStay part = true) :
      Step links here part links here []
  | up {links : Nat} {here : Location} {entries : Entries}
      (dir : root.at? here = some (.directory entries)) :
      Step links here ['.', '.'] links here.dropLast []
  | down {links : Nat} {here : Location} {part : List Char} {entries : Entries} {n : FileNode}
      (dir : root.at? here = some (.directory entries)) (moves : isStay part = false)
      (down : part ≠ ['.', '.']) (short : byteLength part ≤ nameLimit)
      (found : entries.lookup part = some n) (solid : ∀ target, n ≠ .link target) :
      Step links here part links (here ++ [part]) []
  | link {links : Nat} {here : Location} {part : List Char} {entries : Entries} {target : List Char}
      (dir : root.at? here = some (.directory entries)) (moves : isStay part = false)
      (down : part ≠ ['.', '.']) (short : byteLength part ≤ nameLimit)
      (found : entries.lookup part = some (.link target)) :
      Step (links + 1) here part links (if target.head? = some '/' then [] else here) (parts target)

/-- The parts of a path lead to a location, where so many links are left. -/
inductive Follows : Nat → Location → List (List Char) → Nat → Location → Prop where
  | done (links : Nat) (here : Location) : Follows links here [] links here
  | step {links links' left : Nat} {here here' there : Location} {part : List Char}
      {more rest : List (List Char)} (step : Step root links here part links' here' more)
      (after : Follows links' here' (more ++ rest) left there) :
      Follows links here (part :: rest) left there

variable {root} {links left : Nat} {here there : Location}

theorem Step.follow_eq {links' : Nat} {here' : Location} {part : List Char} {more : List (List Char)}
    (h : Step root links here part links' here' more) (rest : List (List Char)) :
    follow root links here (part :: rest) = follow root links' here' (more ++ rest) := by
  cases h with
  | stay dir stays => simp only [follow, dir, stays, if_true, List.nil_append]
  | up dir =>
      have moves : isStay ['.', '.'] = false := rfl
      simp only [follow, dir, moves, Bool.false_eq_true, if_false, if_true, List.nil_append]
  | down dir moves down short found solid =>
      rename_i entries n
      simp only [follow, dir, moves, down, Nat.not_lt.2 short, found, Bool.false_eq_true, if_false]
      cases n with
      | file content => rfl
      | directory entries => rfl
      | link target => exact absurd rfl (solid target)
  | link dir moves down short found =>
      simp only [follow, dir, moves, down, Nat.not_lt.2 short, found, Bool.false_eq_true, if_false]

theorem follow_eq_ok_iff {ps : List (List Char)} :
    follow root links here ps = .ok there ↔ ∃ left, Follows root links here ps left there := by
  constructor
  · intro h
    fun_induction follow root links here ps with
    | case1 links here =>
        cases h
        exact ⟨links, .done links there⟩
    | case2 links here part rest entries dir stays =>
        rename_i ih
        obtain ⟨left, follows⟩ := ih h
        exact ⟨left, .step (.stay dir stays) follows⟩
    | case3 links here rest entries dir moves =>
        rename_i ih
        obtain ⟨left, follows⟩ := ih h
        exact ⟨left, .step (.up dir) follows⟩
    | case4 => cases h
    | case5 => cases h
    | case6 => cases h
    | case7 here part rest entries dir moves down short target found links =>
        rename_i ih
        obtain ⟨left, follows⟩ := ih h
        exact ⟨left, .step (.link dir (by simpa using moves) down (Nat.le_of_not_lt short) found)
          follows⟩
    | case8 links here part rest entries dir moves down short n solid found =>
        rename_i ih
        obtain ⟨left, follows⟩ := ih h
        exact ⟨left, .step (.down dir (by simpa using moves) down (Nat.le_of_not_lt short) found solid)
          follows⟩
    | case9 => cases h
  · rintro ⟨left, h⟩
    induction h with
    | done links here => rw [follow]
    | step step after ih => rw [step.follow_eq, ih]

/-- A path that goes on leads up to where it goes on, and on from there. -/
theorem Follows.split {xs ys : List (List Char)} (h : Follows root links here (xs ++ ys) left there) :
    ∃ left' mid, Follows root links here xs left' mid ∧ Follows root left' mid ys left there := by
  generalize all : xs ++ ys = ps at h
  induction h generalizing xs with
  | done links here =>
      obtain ⟨rfl, rfl⟩ := List.append_eq_nil_iff.1 all
      exact ⟨links, here, .done links here, .done links here⟩
  | step step rest ih =>
      cases xs with
      | nil =>
          cases all
          exact ⟨_, _, .done _ _, .step step rest⟩
      | cons part xs =>
          cases all
          obtain ⟨left', mid, before, after⟩ := ih (List.append_assoc _ _ _)
          exact ⟨left', mid, .step step before, after⟩

theorem Follows.append {xs ys : List (List Char)} {left' : Nat} {mid : Location}
    (h : Follows root links here xs left' mid) (k : Follows root left' mid ys left there) :
    Follows root links here (xs ++ ys) left there := by
  induction h with
  | done links here => exact k
  | step step rest ih =>
      rw [List.cons_append]
      refine .step step ?_
      rw [← List.append_assoc]
      exact ih k

/-- A name leads to what is under it, unless that is a link. -/
theorem Follows.name {name : FileName} (hn : IsName name)
    (h : Follows root links here [name] left there) :
    ∃ entries n, root.at? here = some (.directory entries) ∧ entries.lookup name = some n ∧
      ((∀ target, n ≠ .link target) → there = here ++ [name]) := by
  cases h with
  | step step after =>
      cases step with
      | stay dir stays =>
          rw [hn.moves] at stays
          cases stays
      | up dir => exact absurd rfl hn.down
      | down dir moves down short found solid =>
          cases after
          exact ⟨_, _, dir, found, fun _ => rfl⟩
      | link dir moves down short found => exact ⟨_, _, dir, found, fun solid => absurd rfl (solid _)⟩

theorem resolve_eq_ok_iff {path : List Char} :
    resolve root path = .ok there ↔ '\x00' ∉ path ∧ path ≠ [] ∧ byteLength path ≤ pathLimit ∧
      ∃ left, Follows root linkLimit [] (parts path) left there := by
  unfold resolve
  split
  · next nul => simp [nul]
  · next clear =>
      split
      · next empty => simp [empty]
      · next filled =>
          split
          · next long => simp [Nat.not_le.2 long]
          · next short => simp [clear, filled, Nat.not_lt.1 short, follow_eq_ok_iff]

/-- A path that goes on by a name leads to what is under the name where the path leads, unless that is
a link. -/
theorem resolve_join {path : List Char} (hp : path ≠ []) {name : FileName} (hn : IsName name)
    (h : resolve root (join path name) = .ok there) :
    ∃ here entries n, resolve root path = .ok here ∧ root.at? here = some (.directory entries) ∧
      entries.lookup name = some n ∧ ((∀ target, n ≠ .link target) → there = here ++ [name]) := by
  obtain ⟨clear, -, short, left, follows⟩ := resolve_eq_ok_iff.1 h
  obtain ⟨ps, parts, eq⟩ := parts_join hp hn
  rw [parts] at follows
  obtain ⟨left', here, before, last⟩ := follows.split
  obtain ⟨entries, n, dir, found, leads⟩ := last.name hn
  obtain ⟨rest, joined⟩ := prefix_join path name
  rw [← joined, byteLength_append] at short
  rw [← joined, List.mem_append, not_or] at clear
  refine ⟨here, entries, n, resolve_eq_ok_iff.2 ⟨clear.1, hp, by omega, left', ?_⟩, dir, found, leads⟩
  rcases eq with eq | eq
  · rw [eq]
    exact before
  · rw [eq]
    exact before.append (.step (.stay dir rfl) (.done left' here))

theorem stat_eq_ok_iff {path : List Char} {n : FileNode} :
    stat root path = .ok (there, n) ↔ resolve root path = .ok there ∧ root.at? there = some n := by
  unfold stat
  cases resolve root path with
  | error cause => simp [Except.bind]
  | ok here =>
      simp only [Except.bind, Except.ok.injEq]
      constructor
      · intro h
        cases found : root.at? here with
        | none => simp [found] at h
        | some m =>
            simp only [found, Except.ok.injEq, Prod.mk.injEq] at h
            obtain ⟨rfl, rfl⟩ := h
            exact ⟨rfl, found⟩
      · rintro ⟨rfl, found⟩
        rw [found]

theorem ne_nil_of_stat {path : List Char} {n : FileNode} (h : stat root path = .ok (there, n)) :
    path ≠ [] :=
  (resolve_eq_ok_iff.1 (stat_eq_ok_iff.1 h).1).2.1

/-- A path can go on by a name only from a directory, and to what is in the directory under the name,
unless that is a link. -/
theorem stat_join {path : List Char} (hp : path ≠ []) {name : FileName} (hn : IsName name)
    {n : FileNode} (h : stat root (join path name) = .ok (there, n)) :
    ∃ here entries m, stat root path = .ok (here, .directory entries) ∧
      entries.lookup name = some m ∧ ((∀ target, m ≠ .link target) → there = here ++ [name] ∧ n = m) := by
  obtain ⟨resolved, here⟩ := stat_eq_ok_iff.1 h
  obtain ⟨above, entries, m, before, dir, found, leads⟩ := resolve_join hp hn resolved
  refine ⟨above, entries, m, stat_eq_ok_iff.2 ⟨before, dir⟩, found, fun solid => ?_⟩
  obtain rfl := leads solid
  rw [FileNode.at?_append_name dir, found] at here
  exact ⟨rfl, (Option.some.inj here).symm⟩

/-- What a path leads to when it goes on by a name under which there is no link. -/
theorem stat_join_solid {path : List Char} {entries : Entries}
    (dir : stat root path = .ok (here, .directory entries)) {name : FileName} (hn : IsName name)
    {m : FileNode} (found : entries.lookup name = some m) {n : FileNode}
    (h : stat root (join path name) = .ok (there, n)) (solid : ∀ target, m ≠ .link target) :
    there = here ++ [name] ∧ n = m := by
  obtain ⟨here', entries', m', dir', found', leads⟩ := stat_join (ne_nil_of_stat dir) hn h
  rw [dir] at dir'
  cases dir'
  rw [found] at found'
  cases found'
  exact leads solid

end Following

end Path

end MettaSyntax
