import MettaSyntax.Proofs.Spelling

/-! # Positions from distances

A tree can be kept without a position in it: a leaf by its distance from what comes before it and by its
own size, a node by what both of these add up to over its children.  `Measured.spans` adds the distances
up again on the way down from the root.  A distance over the end of a row starts counting columns anew, so
the sums come out right only where every part lies ahead of the one before it.  In the tree of a text it
does, and its nodes are found where they stand. -/

set_option autoImplicit false

namespace MettaSyntax

/-- How far one position is from another: in bytes, in rows and, on the last of the rows, in columns. -/
structure Distance where
  bytes : Nat
  rows : Nat
  columns : Nat
  deriving DecidableEq

namespace Distance

def zero : Distance := ⟨0, 0, 0⟩

/-- The column that a distance leads to from another one. -/
def column (d : Distance) (start : Nat) : Nat :=
  if 0 < d.rows then d.columns else start + d.columns

def add (d e : Distance) : Distance :=
  ⟨d.bytes + e.bytes, d.rows + e.rows, e.column d.columns⟩

end Distance

namespace Position

def move (p : Position) (d : Distance) : Position :=
  ⟨p.byte + d.bytes, p.row + d.rows, d.column p.column⟩

/-- The distance from a position to one that lies ahead of it. -/
def distance (p q : Position) : Distance :=
  ⟨q.byte - p.byte, q.row - p.row, if p.row < q.row then q.column else q.column - p.column⟩

/-- One position lies ahead of another or at the same place, whether by bytes or by rows and columns. -/
def Ahead (p q : Position) : Prop :=
  p.byte ≤ q.byte ∧ p.row ≤ q.row ∧ (p.row = q.row → p.column ≤ q.column)

theorem Ahead.refl (p : Position) : p.Ahead p :=
  ⟨Nat.le_refl _, Nat.le_refl _, fun _ => Nat.le_refl _⟩

theorem Ahead.trans {p q r : Position} (h : p.Ahead q) (h' : q.Ahead r) : p.Ahead r := by
  obtain ⟨bytes, rows, columns⟩ := h
  obtain ⟨bytes', rows', columns'⟩ := h'
  refine ⟨Nat.le_trans bytes bytes', Nat.le_trans rows rows', ?_⟩
  intro same
  have first : p.row = q.row := by omega
  have second : q.row = r.row := by omega
  exact Nat.le_trans (columns first) (columns' second)

theorem ahead_after (p : Position) (cs : List Char) : p.Ahead (p.after cs) := by
  refine ⟨?_, p.row_le_after cs, ?_⟩
  · rw [byte_after]
    exact Nat.le_add_right _ _
  · intro same
    rw [column_after same.symm]
    exact Nat.le_add_right _ _

/-- Of two places in a text the one with more bytes before it lies ahead. -/
theorem Parts.ahead {text : List Char} {p q : Position} (hp : p.Parts text) (hq : q.Parts text)
    (order : p.byte ≤ q.byte) : p.Ahead q := by
  obtain ⟨before, rest, split, rfl⟩ := hp
  obtain ⟨through, after, split', rfl⟩ := hq
  rw [Lexer.byte_after_origin, Lexer.byte_after_origin] at order
  obtain ⟨gap, rfl⟩ : before <+: through :=
    prefix_of_byteLength_le ⟨rest, split.symm⟩ ⟨after, split'.symm⟩ order
  rw [after_append]
  exact ahead_after _ gap

/-- A distance that leads to a later row leads to one column, wherever it starts. -/
theorem column_distance_of_row_lt {p q : Position} (h : p.row < q.row) :
    (p.distance q).columns = q.column ∧ ∀ start, (p.distance q).column start = q.column := by
  have columns : (p.distance q).columns = q.column := if_pos h
  have down : 0 < (p.distance q).rows := Nat.sub_pos_of_lt h
  refine ⟨columns, fun start => ?_⟩
  rw [Distance.column, if_pos down, columns]

theorem column_distance_of_row_eq {p q : Position} (h : p.row = q.row) :
    (p.distance q).columns = q.column - p.column ∧
      ∀ start, (p.distance q).column start = start + (q.column - p.column) := by
  have level : ¬ p.row < q.row := by omega
  have flat : ¬ 0 < (p.distance q).rows := fun down => level (Nat.lt_of_sub_pos down)
  have columns : (p.distance q).columns = q.column - p.column := if_neg level
  refine ⟨columns, fun start => ?_⟩
  rw [Distance.column, if_neg flat, columns]

theorem move_distance {p q : Position} (h : p.Ahead q) : p.move (p.distance q) = q := by
  obtain ⟨bytes, rows, columns⟩ := h
  have column : (p.distance q).column p.column = q.column := by
    by_cases lower : p.row < q.row
    · exact (column_distance_of_row_lt lower).2 _
    · have level : p.row = q.row := by omega
      rw [(column_distance_of_row_eq level).2, Nat.add_sub_cancel' (columns level)]
  show (⟨p.byte + (q.byte - p.byte), p.row + (q.row - p.row), (p.distance q).column p.column⟩ : Position) = q
  rw [column, Nat.add_sub_cancel' bytes, Nat.add_sub_cancel' rows]

theorem distance_add_distance {p q r : Position} (h : p.Ahead q) (h' : q.Ahead r) :
    (p.distance q).add (q.distance r) = p.distance r := by
  obtain ⟨bytes, rows, columns⟩ := h
  obtain ⟨bytes', rows', columns'⟩ := h'
  have sumBytes : q.byte - p.byte + (r.byte - q.byte) = r.byte - p.byte := by omega
  have sumRows : q.row - p.row + (r.row - q.row) = r.row - p.row := by omega
  have sumColumns : (q.distance r).column (p.distance q).columns = (p.distance r).columns := by
    by_cases lower : q.row < r.row
    · have below : p.row < r.row := by omega
      rw [(column_distance_of_row_lt lower).2, (column_distance_of_row_lt below).1]
    · have level : q.row = r.row := by omega
      rw [(column_distance_of_row_eq level).2]
      by_cases under : p.row < q.row
      · -- the last column counts from the row on which `q` stands
        have below : p.row < r.row := by omega
        rw [(column_distance_of_row_lt under).1, (column_distance_of_row_lt below).1,
          Nat.add_sub_cancel' (columns' level)]
      · have level' : p.row = q.row := by omega
        have left := columns level'
        have right := columns' level
        rw [(column_distance_of_row_eq level').1, (column_distance_of_row_eq (level'.trans level)).1]
        omega
  show (⟨q.byte - p.byte + (r.byte - q.byte), q.row - p.row + (r.row - q.row),
    (q.distance r).column (p.distance q).columns⟩ : Distance) = p.distance r
  rw [sumBytes, sumRows, sumColumns]
  rfl

end Position

/-- A tree of which only distances are kept: how far it begins from what comes before it, how far it goes
from there, and its parts. -/
inductive Measured where
  | mk (padding size : Distance) (parts : List Measured)

namespace Measured

def padding : Measured → Distance
  | .mk padding _ _ => padding

def size : Measured → Distance
  | .mk _ size _ => size

/-- A node is as far from what comes before as the first of its parts, and goes as far as all of them
do together. -/
def ofParts : List Measured → Measured
  | [] => .mk .zero .zero []
  | first :: rest =>
      .mk first.padding (rest.foldl (fun d m => d.add (m.padding.add m.size)) first.size) (first :: rest)

mutual

/-- The spans of a tree and of all nodes below it, each before those below it, if the tree is kept by its
distance from `p`. -/
def spans (p : Position) : Measured → List Span
  | .mk padding size parts => ⟨p.move padding, (p.move padding).move size⟩ :: spansRow p parts

def spansRow (p : Position) : List Measured → List Span
  | [] => []
  | m :: row => spans p m ++ spansRow ((p.move m.padding).move m.size) row

end

end Measured

namespace Tree

mutual

/-- The distances in a tree that comes after the position `p`.  Those of a leaf are taken from the text,
those of a node from its children. -/
def measured (p : Position) : Tree → Measured
  | .leaf token _ => .mk (p.distance token.span.start) (token.span.start.distance token.span.stop) []
  | .node _ _ children => .ofParts (measuredRow p children)

def measuredRow (p : Position) : List Tree → List Measured
  | [] => []
  | t :: row => measured p t :: measuredRow t.span.stop row

end

/-- The spans of a row of trees lie ahead of one another from a position on. -/
def Chain : Position → List Tree → Prop
  | _, [] => True
  | p, t :: row => p.Ahead t.span.start ∧ t.span.start.Ahead t.span.stop ∧ Chain t.span.stop row

/-- A node spans its children, which lie ahead of one another. -/
def Joined : Tree → Prop
  | .leaf _ _ => True
  | .node _ span children => children ≠ [] ∧ span = hull .origin children ∧ Chain span.start children

/-- Where a row of trees ends that begins at a position. -/
def stopRow (p : Position) (row : List Tree) : Position :=
  row.foldl (fun _ t => t.span.stop) p

theorem stopRow_cons (p : Position) (t : Tree) (row : List Tree) :
    stopRow p (t :: row) = stopRow t.span.stop row := rfl

theorem hull_cons (p : Position) (t : Tree) (row : List Tree) :
    hull p (t :: row) = ⟨t.span.start, stopRow t.span.stop row⟩ := by
  obtain ⟨last, tail⟩ := Option.isSome_iff_exists.1 (List.getLast?_isSome.2 (List.cons_ne_nil t row))
  obtain ⟨front, split⟩ := List.getLast?_eq_some_iff.1 tail
  have stop : stopRow t.span.stop row = last.span.stop := by
    rw [← stopRow_cons p, split, stopRow, List.foldl_append]
    rfl
  rw [hull, tail, stop]
  rfl

mutual

/-- A tree whose parts lie ahead of one another is measured by where it stands, and its spans are found
again. -/
theorem measured_eq {t : Tree} {p : Position} (joined : ∀ u ∈ t.nodes, u.Joined)
    (ahead : p.Ahead t.span.start) (inside : t.span.start.Ahead t.span.stop) :
    (t.measured p).padding = p.distance t.span.start ∧
      (t.measured p).size = t.span.start.distance t.span.stop ∧
      (t.measured p).spans p = t.nodes.map span := by
  match t with
  | .leaf token missing =>
      have start : p.move (p.distance token.span.start) = token.span.start := Position.move_distance ahead
      have stop : token.span.start.move (token.span.start.distance token.span.stop) = token.span.stop :=
        Position.move_distance inside
      rw [measured]
      refine ⟨rfl, rfl, ?_⟩
      rw [Measured.spans, Measured.spansRow, start, stop, nodes]
      rfl
  | .node label span [] => exact absurd rfl (joined _ (mem_nodes_self _)).1
  | .node label span (first :: rest) =>
      rw [nodes, nodesRow, List.forall_mem_cons, List.forall_mem_append] at joined
      obtain ⟨⟨-, hull, chain⟩, joinedFirst, joinedRest⟩ := joined
      rw [hull_cons] at hull
      subst hull
      obtain ⟨-, insideFirst, chainRest⟩ := chain
      obtain ⟨padding, size, spans⟩ := measured_eq joinedFirst ahead insideFirst
      obtain ⟨total, spansRest⟩ := measuredRow_eq joinedRest insideFirst chainRest
      have start : p.move (p.distance first.span.start) = first.span.start := Position.move_distance ahead
      have next : first.span.start.move (first.span.start.distance first.span.stop) = first.span.stop :=
        Position.move_distance insideFirst
      have stop : first.span.start.move (first.span.start.distance (stopRow first.span.stop rest)) =
          stopRow first.span.stop rest := Position.move_distance inside
      rw [measured, measuredRow, Measured.ofParts, padding, size, total]
      refine ⟨rfl, rfl, ?_⟩
      rw [Measured.spans, Measured.spansRow, padding, size, start, next, stop, spans, spansRest, nodes,
        nodesRow, List.map_cons, List.map_append]
      rfl

theorem measuredRow_eq {row : List Tree} {start p : Position} (joined : ∀ u ∈ nodesRow row, u.Joined)
    (ahead : start.Ahead p) (chain : Chain p row) :
    (measuredRow p row).foldl (fun d m => d.add (m.padding.add m.size)) (start.distance p) =
        start.distance (stopRow p row) ∧
      Measured.spansRow p (measuredRow p row) = (nodesRow row).map span := by
  match row with
  | [] =>
      rw [measuredRow, Measured.spansRow, nodesRow]
      exact ⟨rfl, rfl⟩
  | t :: row =>
      rw [nodesRow, List.forall_mem_append] at joined
      obtain ⟨joinedFirst, joinedRest⟩ := joined
      obtain ⟨begins, inside, chainRest⟩ := chain
      obtain ⟨padding, size, spans⟩ := measured_eq joinedFirst begins inside
      obtain ⟨total, spansRest⟩ :=
        measuredRow_eq joinedRest ((ahead.trans begins).trans inside) chainRest
      have whole : (start.distance p).add ((p.distance t.span.start).add
          (t.span.start.distance t.span.stop)) = start.distance t.span.stop := by
        rw [Position.distance_add_distance begins inside,
          Position.distance_add_distance ahead (begins.trans inside)]
      have stop : (p.move (p.distance t.span.start)).move (t.span.start.distance t.span.stop) =
          t.span.stop := by
        rw [Position.move_distance begins, Position.move_distance inside]
      rw [measuredRow, List.foldl_cons, padding, size, whole, total, stopRow_cons]
      refine ⟨rfl, ?_⟩
      rw [Measured.spansRow, padding, size, stop, spans, spansRest, nodesRow, List.map_append]

end

/-! ## The tree of a text -/

section Text

variable {text : List Char}

theorem chain_of_inOrder {row : List Tree} {p : Position} {hi : Nat} (place : p.Parts text)
    (parts : ∀ t ∈ row, t.span.start.Parts text ∧ t.span.stop.Parts text)
    (ordered : InOrder p.byte row hi) : Chain p row := by
  induction row generalizing p with
  | nil => trivial
  | cons t row ih =>
      obtain ⟨above, inside, rest⟩ := ordered
      obtain ⟨⟨start, stop⟩, parts⟩ := List.forall_mem_cons.1 parts
      exact ⟨place.ahead start above, start.ahead stop inside, ih stop parts rest⟩

/-- In the tree of a text every node spans its children, which lie ahead of one another. -/
theorem parse_joined {u : Tree} (hu : u ∈ (parse text).nodes) : u.Joined := by
  cases node : u with
  | leaf token missing => trivial
  | node label span children =>
      rw [node] at hu
      have member (c : Tree) (hc : c ∈ children) : c ∈ (parse text).nodes :=
        mem_nodes_of_mem_nodesRow hu (mem_nodesRow_of_mem hc)
      have parts (c : Tree) (hc : c ∈ children) : c.span.start.Parts text ∧ c.span.stop.Parts text := by
        obtain ⟨word, spells⟩ := exists_spells (member c hc)
        exact ⟨spells.start, spells.stop⟩
      have ordered : InOrder span.start.byte children span.stop.byte := by
        obtain ⟨extent, -, lo, hi, inside⟩ := extent_of_mem_nodes hu
        obtain ⟨-, between⟩ := extent.inOrder_leaves inside
        rw [leaves] at between
        exact inOrder_of_leavesRow (fun c hc => (extent_of_mem_nodes (member c hc)).1) between
      obtain ⟨word, spells⟩ := exists_spells hu
      obtain ⟨p, ne, place⟩ : ∃ p, children ≠ [] ∧ span = hull p children := by
        obtain ⟨n, whole⟩ := parse_repaired text
        rw [nodes_eq] at hu
        rcases List.mem_cons.1 hu with root | below
        · obtain ⟨label', row, eq, -⟩ := whole
          rw [eq, ofChildren] at root
          cases root
          exact ⟨.origin, by simp, rfl⟩
        · rcases whole.of_mem_nodes below with ending | ⟨formed, part, -⟩
          · cases ending
          · have ne := formed.ne_nil part
            cases formed with
            | node p admits place parts formed => exact ⟨p, ne, place⟩
      refine ⟨ne, ?_, chain_of_inOrder spells.start parts ordered⟩
      obtain ⟨first, rest, rfl⟩ := List.exists_cons_of_ne_nil ne
      rw [place, hull_cons, hull_cons]

end Text

/-- Only distances are needed to tell where the nodes of the tree of a text stand. -/
theorem spans_measured_parse (text : List Char) :
    ((parse text).measured .origin).spans .origin = (parse text).nodes.map span := by
  have origin : Position.origin.Parts text := ⟨[], text, rfl, rfl⟩
  obtain ⟨word, spells⟩ := exists_spells (mem_nodes_self (parse text))
  have inside : (parse text).span.start.Ahead (parse text).span.stop := by
    obtain ⟨extent, -, lo, hi, ordered⟩ := extent_of_mem_nodes (mem_nodes_self (parse text))
    exact spells.start.ahead spells.stop (extent.inOrder_leaves ordered).1
  exact (measured_eq (fun u hu => parse_joined hu) (origin.ahead spells.start (Nat.zero_le _)) inside).2.2

end Tree

end MettaSyntax
