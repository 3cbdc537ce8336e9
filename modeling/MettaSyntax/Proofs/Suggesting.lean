import MettaSyntax.Index.Suggestion
import MettaSyntax.Proofs.Describing

/-! # Completions are complete and distinct

A completion may be wanted for a built-in form or for any name in the index, and a name may be both.
`Suggestion.sift` goes once through a row with the labels it has seen, and keeps exactly what
`Suggestion.distinct` keeps.  Of two rows after one another the first stays as it is when it has no
label twice, and the second loses what the first has already. -/

set_option autoImplicit false

namespace MettaSyntax

namespace Suggestion

/-- Keeps the suggestions whose labels have not been seen before, neither among the given labels nor
earlier in the row. -/
def sift (seen : List String) : List Suggestion → List Suggestion
  | [] => []
  | s :: rest => if s.label ∈ seen then sift seen rest else s :: sift (s.label :: seen) rest

/-- A pass through a row keeps what is distinct in it and has not been seen before the row. -/
theorem sift_eq (seen : List String) (row : List Suggestion) :
    sift seen row = (distinct row).filter (·.label ∉ seen) := by
  induction row generalizing seen with
  | nil => rfl
  | cons s rest ih =>
      rw [sift, distinct]
      by_cases known : s.label ∈ seen
      · rw [if_pos known, ih, List.filter_cons_of_neg (by simpa using known), List.filter_filter]
        apply List.filter_congr
        intro t _
        -- a label that has not been seen differs from that of `s`, which has
        have other : t.label ∉ seen → t.label ≠ s.label := by
          intro unseen same
          exact unseen (same ▸ known)
        simpa using other
      · rw [if_neg known, ih, List.filter_cons_of_pos (by simpa using known), List.filter_filter]
        congr 1
        apply List.filter_congr
        intro t _
        simp [Bool.and_comm]

theorem distinct_of_nodup {row : List Suggestion} (h : (row.map label).Nodup) : distinct row = row := by
  induction row with
  | nil => rfl
  | cons s rest ih =>
      rw [List.map_cons, List.nodup_cons] at h
      obtain ⟨fresh, nodup⟩ := h
      rw [distinct, ih nodup, List.filter_eq_self.2]
      intro t ht
      have other : t.label ≠ s.label := by
        intro same
        exact fresh (same ▸ List.mem_map_of_mem ht)
      simpa using other

theorem distinct_nodup (row : List Suggestion) : ((distinct row).map label).Nodup := by
  induction row with
  | nil => exact List.nodup_nil
  | cons s rest ih =>
      rw [distinct, List.map_cons, List.nodup_cons]
      refine ⟨?_, ih.sublist (List.filter_sublist.map label)⟩
      intro again
      obtain ⟨t, ht, same⟩ := List.mem_map.1 again
      have other := (List.mem_filter.1 ht).2
      simp [same] at other

theorem distinct_append (xs ys : List Suggestion) :
    distinct (xs ++ ys) = distinct xs ++ (distinct ys).filter (·.label ∉ xs.map label) := by
  induction xs with
  | nil => simp [distinct]
  | cons s xs ih =>
      rw [List.cons_append, distinct, ih, List.filter_append, List.filter_filter, distinct,
        List.cons_append]
      congr 2
      apply List.filter_congr
      intro t _
      simp

theorem keywords_nodup : keywords.Nodup := by
  decide

end Suggestion

namespace Index

open Suggestion

/-- The names in an index that are not built-in forms. -/
def ownNames (index : Index) : List String :=
  index.names.filter (· ∉ keywords)

/-- What is offered are the built-in forms, and after them the names that are none of these. -/
theorem suggestions_eq {index : Index} (nodup : index.names.Nodup) :
    index.suggestions = keywords.map (⟨·, .keyword⟩) ++ index.ownNames.map (⟨·, .definition⟩) := by
  have labels (names : List String) (kind : SuggestionKind) :
      (names.map (Suggestion.mk · kind)).map label = names := by
    rw [List.map_map]
    exact List.map_id names
  have forms : distinct (keywords.map (Suggestion.mk · .keyword)) =
      keywords.map (Suggestion.mk · .keyword) :=
    distinct_of_nodup (by rw [labels]; exact keywords_nodup)
  have names : distinct (index.names.map (Suggestion.mk · .definition)) =
      index.names.map (Suggestion.mk · .definition) :=
    distinct_of_nodup (by rw [labels]; exact nodup)
  rw [suggestions, distinct_append, forms, names, labels, List.filter_map]
  rfl

/-- After any run of commands, the names in the index are those that the latest text of some document
defines. -/
theorem mem_names_run_iff (commands : List Command) (name : String) :
    name ∈ (run commands).names ↔
      ∃ uri source, Event.Leaves (commands.flatMap Command.events) uri source ∧
        ∃ d ∈ Definition.all source.toList (parse source.toList), d.name = name := by
  have represents := run_represents commands
  rw [represents.mem_names_iff, represents.lookup]
  constructor
  · intro some
    obtain ⟨e, he⟩ := List.exists_mem_of_ne_nil _ some
    obtain ⟨source, left, mem, named⟩ := mem_entriesAfter_iff.1 he
    exact ⟨e.uri, source, left, e.definition, mem, named⟩
  · intro some
    obtain ⟨uri, source, left, d, mem, named⟩ := some
    exact List.ne_nil_of_mem (mem_entriesAfter_iff (e := ⟨uri, d⟩).2 ⟨source, left, mem, named⟩)

end Index

/-- After any run of commands on an empty index, what is offered to complete a name are the built-in
forms in their order, and then, in the order of their bytes, the names that are not built-in forms and
are defined in the latest text of a document that is there.  One pass that remembers the labels it has
seen finds them.  No label is offered twice, and every name with entries is offered. -/
theorem suggestions_exact (commands : List Command) :
    let index := Index.run commands
    let events := commands.flatMap Command.events
    (∃ own : List String,
      index.suggestions =
        Suggestion.keywords.map (⟨·, .keyword⟩) ++ own.map (⟨·, .definition⟩) ∧
      (own.Pairwise fun a b => utf8Bytes a < utf8Bytes b) ∧
      ∀ name, name ∈ own ↔ name ∉ Suggestion.keywords ∧
        ∃ uri source, Event.Leaves events uri source ∧
          ∃ d ∈ Definition.all source.toList (parse source.toList), d.name = name) ∧
    index.suggestions = Suggestion.sift []
      (Suggestion.keywords.map (⟨·, .keyword⟩) ++ index.names.map (⟨·, .definition⟩)) ∧
    (index.suggestions.map Suggestion.label).Nodup ∧
    ∀ name, index.lookup name ≠ [] → name ∈ index.suggestions.map Suggestion.label := by
  intro index events
  have represents : index.Represents (documentsAfter events) := Index.run_represents commands
  have offered := Index.suggestions_eq represents.names_nodup
  refine ⟨⟨index.ownNames, offered, represents.names_ascend.filter _, fun name => ?_⟩, ?_,
    Suggestion.distinct_nodup _, fun name entries => ?_⟩
  · rw [Index.ownNames, List.mem_filter, Index.mem_names_run_iff, decide_eq_true_eq, and_comm]
  · rw [Suggestion.sift_eq, Index.suggestions]
    simp
  · have inIndex := (represents.mem_names_iff name).2 entries
    rw [offered, List.map_append, List.mem_append]
    by_cases form : name ∈ Suggestion.keywords
    · exact .inl (List.mem_map.2 ⟨⟨name, .keyword⟩, List.mem_map_of_mem form, rfl⟩)
    · have own : name ∈ index.ownNames := List.mem_filter.2 ⟨inIndex, by simpa using form⟩
      exact .inr (List.mem_map.2 ⟨⟨name, .definition⟩, List.mem_map_of_mem own, rfl⟩)

end MettaSyntax
