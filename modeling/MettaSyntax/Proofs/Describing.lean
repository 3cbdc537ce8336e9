import MettaSyntax.Proofs.Documents

/-! # The entry that describes a name

Among the entries under a name a type declaration is better than an equation, and of two of one kind the
one in the document that is asked from is better.  `Index.Entry.rank` numbers the four cases, and what is
found is the first entry of the smallest rank.  Since the entries of an index are those of the documents
that the events left, the entry comes from the latest text of a document that is still there. -/

set_option autoImplicit false

namespace MettaSyntax

/-- Of a row of events the last one about a document inserted it, with the given text. -/
def Event.Leaves (events : List Event) (uri source : String) : Prop :=
  ∃ earlier later, events = earlier ++ Event.insert uri source :: later ∧ ∀ e ∈ later, e.uri ≠ uri

theorem Event.leaves_cons {e : Event} {later : List Event} {uri source : String} :
    Event.Leaves (e :: later) uri source ↔
      Event.Leaves later uri source ∨ e = .insert uri source ∧ ∀ x ∈ later, x.uri ≠ uri := by
  rw [Event.Leaves, exists_split_cons, or_comm]
  rfl

/-- The documents that are there after a row of events are those that the events leave. -/
theorem mem_documentsAfter_iff {events : List Event} {d : Document} :
    d ∈ documentsAfter events ↔ ∃ source, Event.Leaves events d.uri source ∧
      d.definitions = Definition.all source.toList (parse source.toList) := by
  induction events with
  | nil => simp [documentsAfter, Event.Leaves]
  | cons e later ih =>
      have again : later.any (·.uri = e.uri) = true ↔ ¬ ∀ x ∈ later, x.uri ≠ e.uri := by simp
      simp only [Event.leaves_cons, or_and_right, exists_or, ← ih]
      rw [documentsAfter]
      by_cases last : ∀ x ∈ later, x.uri ≠ e.uri
      · rw [if_neg (by rwa [again, not_not]), List.mem_append, or_comm]
        refine or_congr_right ?_
        cases e with
        | insert uri source =>
            have others : ∀ x ∈ later, x.uri ≠ uri := last
            constructor
            · intro mem
              obtain rfl := List.mem_singleton.1 mem
              exact ⟨source, ⟨rfl, others⟩, rfl⟩
            · rintro ⟨source', ⟨same, -⟩, definitions⟩
              obtain ⟨uri', found⟩ := d
              obtain ⟨rfl, rfl⟩ := Event.insert.inj same
              have found' : found = _ := definitions
              rw [found']
              exact List.mem_singleton_self _
        | erase uri => simp [Event.document?]
      · rw [if_pos (again.2 last)]
        refine (or_iff_left ?_).symm
        rintro ⟨source, ⟨rfl, others⟩, -⟩
        exact last others

/-! ## The first entry of the smallest rank -/

/-- The first of the members of a row that have the smallest rank. -/
def IsFirstLeast {α : Type} (rank : α → Nat) (row : List α) (e : α) : Prop :=
  ∃ before after, row = before ++ e :: after ∧ (∀ x ∈ before, rank e < rank x) ∧
    ∀ x ∈ after, rank e ≤ rank x

section FirstLeast

variable {α : Type} {rank : α → Nat} {row : List α} {e e' : α}

theorem IsFirstLeast.mem (h : IsFirstLeast rank row e) : e ∈ row := by
  obtain ⟨before, after, rfl, -⟩ := h
  simp

theorem IsFirstLeast.unique (h : IsFirstLeast rank row e) (h' : IsFirstLeast rank row e') : e = e' := by
  obtain ⟨before, after, split, above, least⟩ := h
  obtain ⟨before', after', split', above', least'⟩ := h'
  rw [split] at split'
  -- where one stood before the other, the two would have to be of smaller rank than each other
  rcases List.append_eq_append_iff.1 split' with ⟨mid, front, rest⟩ | ⟨mid, front, rest⟩
  · cases mid with
    | nil => exact (List.cons.inj rest).1
    | cons x mid =>
        obtain ⟨rfl, rfl⟩ := List.cons.inj rest
        have less := above' e (by rw [front]; simp)
        have le := least e' (by simp)
        omega
  · cases mid with
    | nil => exact (List.cons.inj rest).1.symm
    | cons x mid =>
        obtain ⟨rfl, rfl⟩ := List.cons.inj rest
        have less := above e' (by rw [front]; simp)
        have le := least' e (by simp)
        omega

/-- Where no rank is below `k`, a search for the ranks up to `k` finds the first least member. -/
theorem IsFirstLeast.of_find? {p : α → Bool} {k : Nat} (least : ∀ x ∈ row, k ≤ rank x)
    (fits : ∀ x ∈ row, p x = true ↔ rank x ≤ k) (found : row.find? p = some e) :
    IsFirstLeast rank row e := by
  obtain ⟨holds, before, after, split, skipped⟩ := List.find?_eq_some_iff_append.1 found
  have mem : e ∈ row := List.mem_of_find?_eq_some found
  have small : rank e ≤ k := (fits e mem).1 holds
  refine ⟨before, after, split, fun x hx => ?_, fun x hx => ?_⟩
  · have inRow : x ∈ row := by
      rw [split]
      exact List.mem_append_left _ hx
    have large : ¬ rank x ≤ k := by
      rw [← fits x inRow]
      simpa using skipped x hx
    omega
  · have inRow : x ∈ row := by
      rw [split]
      exact List.mem_append_right _ (List.mem_cons_of_mem _ hx)
    exact Nat.le_trans small (least x inRow)

end FirstLeast

namespace Index

/-- How good an entry describes its name from inside a document, from 0 for the best on. -/
def Entry.rank (uri : String) (e : Entry) : Nat :=
  match e.definition.kind with
  | .typeDeclaration => if e.uri = uri then 0 else 1
  | .equation => if e.uri = uri then 2 else 3

theorem Entry.isType_iff (uri : String) (e : Entry) :
    e.definition.kind = .typeDeclaration ↔ e.rank uri ≤ 1 := by
  by_cases here : e.uri = uri <;> cases kind : e.definition.kind <;> simp [rank, kind, here]

theorem Entry.isLocal_iff (uri : String) (e : Entry) :
    e.uri = uri ↔ e.rank uri = 0 ∨ e.rank uri = 2 := by
  by_cases here : e.uri = uri <;> cases kind : e.definition.kind <;> simp [rank, kind, here]

theorem Entry.rank_le (uri : String) (e : Entry) : e.rank uri ≤ 3 := by
  by_cases here : e.uri = uri <;> cases kind : e.definition.kind <;> simp [rank, kind, here]

/-- What is found to describe a name is the first entry of the smallest rank. -/
theorem describe?_isFirstLeast {index : Index} {name uri : String} {e : Entry}
    (h : index.describe? name uri = some e) : IsFirstLeast (Entry.rank uri) (index.lookup name) e := by
  simp only [describe?, Option.or_eq_some_iff, List.find?_eq_none] at h
  rcases h with both | ⟨notBoth, type | ⟨notType, here | ⟨notHere, first⟩⟩⟩
  · refine .of_find? (k := 0) (fun x _ => Nat.zero_le _) (fun x _ => ?_) both
    have type := x.isType_iff uri
    have here := x.isLocal_iff uri
    grind
  · have least : ∀ x ∈ index.lookup name, 1 ≤ x.rank uri := by
      intro x hx
      have other := notBoth x hx
      have type := x.isType_iff uri
      have here := x.isLocal_iff uri
      grind
    refine .of_find? least (fun x _ => ?_) type
    rw [decide_eq_true_eq, x.isType_iff uri]
  · have least : ∀ x ∈ index.lookup name, 2 ≤ x.rank uri := by
      intro x hx
      have other := notType x hx
      rw [decide_eq_true_eq, x.isType_iff uri] at other
      omega
    refine .of_find? least (fun x hx => ?_) here
    have large := least x hx
    rw [decide_eq_true_eq, x.isLocal_iff uri]
    omega
  · have least : ∀ x ∈ index.lookup name, 3 ≤ x.rank uri := by
      intro x hx
      have other := notType x hx
      have elsewhere := notHere x hx
      rw [decide_eq_true_eq, x.isType_iff uri] at other
      rw [decide_eq_true_eq, x.isLocal_iff uri] at elsewhere
      omega
    refine .of_find? (p := fun _ => true) least (fun x _ => ?_) ?_
    · simpa using x.rank_le uri
    · obtain ⟨rest, split⟩ := List.head?_eq_some_iff.1 first
      rw [split, List.find?_cons_of_pos rfl]

theorem describe?_eq_none_iff {index : Index} {name uri : String} :
    index.describe? name uri = none ↔ index.lookup name = [] := by
  constructor
  · intro none
    simp only [describe?, Option.or_eq_none_iff] at none
    exact List.head?_eq_none_iff.1 none.2.2.2
  · intro empty
    simp [describe?, empty]

theorem describe?_eq_some_iff {index : Index} {name uri : String} {e : Entry} :
    index.describe? name uri = some e ↔ IsFirstLeast (Entry.rank uri) (index.lookup name) e := by
  refine ⟨describe?_isFirstLeast, fun best => ?_⟩
  cases found : index.describe? name uri with
  | none =>
      have mem := best.mem
      rw [describe?_eq_none_iff.1 found] at mem
      cases mem
  | some e' => rw [best.unique (describe?_isFirstLeast found)]

/-- The entries under a name are the definitions with it in the texts that the events leave. -/
theorem mem_entriesAfter_iff {events : List Event} {name : String} {e : Entry} :
    e ∈ entriesOf (documentsAfter events) name ↔ ∃ source, Event.Leaves events e.uri source ∧
      e.definition ∈ Definition.all source.toList (parse source.toList) ∧ e.definition.name = name := by
  rw [mem_entriesOf_iff]
  constructor
  · intro ⟨d, hd, uri, mem, named⟩
    obtain ⟨source, left, definitions⟩ := mem_documentsAfter_iff.1 hd
    exact ⟨source, uri ▸ left, definitions ▸ mem, named⟩
  · intro ⟨source, left, mem, named⟩
    exact ⟨⟨e.uri, _⟩, mem_documentsAfter_iff.2 ⟨source, left, rfl⟩, rfl, mem, named⟩

end Index

/-- After any run of commands on an empty index, and for any document that a name is asked from: nothing
describes the name exactly if no document that is there defines it; what describes it is the first of its
entries that have the smallest rank; and this is a definition of the name in the latest text of a document
that is there. -/
theorem describe?_best (commands : List Command) (name uri : String) :
    let index := Index.run commands
    let events := commands.flatMap Command.events
    (index.describe? name uri = none ↔ ∀ other source, Event.Leaves events other source →
      ∀ d ∈ Definition.all source.toList (parse source.toList), d.name ≠ name) ∧
    (∀ e, index.describe? name uri = some e ↔
      IsFirstLeast (Index.Entry.rank uri) (index.lookup name) e) ∧
    ∀ e, index.describe? name uri = some e → ∃ source, Event.Leaves events e.uri source ∧
      e.definition ∈ Definition.all source.toList (parse source.toList) ∧ e.definition.name = name := by
  intro index events
  have lookup : index.lookup name = entriesOf (documentsAfter events) name :=
    (Index.run_represents commands).lookup name
  refine ⟨?_, fun e => Index.describe?_eq_some_iff, fun e found => ?_⟩
  · rw [Index.describe?_eq_none_iff, lookup, List.eq_nil_iff_forall_not_mem]
    constructor
    · intro none other source left d hd named
      exact none ⟨other, d⟩ (Index.mem_entriesAfter_iff.2 ⟨source, left, hd, named⟩)
    · intro undefined e mem
      obtain ⟨source, left, hd, named⟩ := Index.mem_entriesAfter_iff.1 mem
      exact undefined e.uri source left e.definition hd named
  · have mem := (Index.describe?_eq_some_iff.1 found).mem
    rw [lookup] at mem
    exact Index.mem_entriesAfter_iff.1 mem

end MettaSyntax
