import MettaSyntax.Parse.Completion
import MettaSyntax.Proofs.Reading
import MettaSyntax.Proofs.Tokens

/-! # Completing a tree keeps every token

However the end of the text is met, the tree that is chosen has all the leaves that the parser
holds, then some missing closing parentheses at the end of the last of them, then the end of the
text.  `Tree.Whole` is the shape of such a tree: below its root every node is well formed. -/

set_option autoImplicit false

namespace MettaSyntax

namespace Tree

def endOf (row : List Tree) : Position :=
  row.getLast?.elim .origin (·.span.stop)

theorem endOf_append_singleton (row : List Tree) (t : Tree) : endOf (row ++ [t]) = t.span.stop := by
  simp [endOf]

/-- The shape of a whole tree over a row of leaves: a file, or an error that is all of the text. -/
def Whole (ending : Token) (held : List Tree) (t : Tree) : Prop :=
  ∃ label row, t = ofChildren label .origin (row ++ [ofToken ending]) ∧
    (∀ u ∈ row, u.Formed ∧ u.isPart = true) ∧ leavesRow row = held ∧
    (label = .error true ∨ label = .production .file ∧
      (counted row = [] ∨ counted row = [.nonterminal .expressions]))

theorem Whole.leaves {ending : Token} {held : List Tree} {t : Tree} (h : Whole ending held t) :
    t.leaves = held ++ [ofToken ending] := by
  obtain ⟨label, row, rfl, -, rfl, -⟩ := h
  rw [leaves_ofChildren, leavesRow_append]
  simp

theorem Whole.extent {ending : Token} {held : List Tree} {t : Tree} (h : Whole ending held t) :
    t.Extent := by
  obtain ⟨label, row, rfl, parts, -⟩ := h
  apply extent_ofChildren (by simp)
  intro u hu
  rcases List.mem_append.1 hu with hu | hu
  · exact (parts u hu).1.extent (parts u hu).2
  · exact List.mem_singleton.1 hu ▸ extent_leaf ending false

/-- A whole tree over a row of leaves and some missing closing parentheses after it. -/
def Repaired (ending : Token) (held : List Tree) (t : Tree) : Prop :=
  ∃ n, Whole ending (held ++ List.replicate n (missingAt .closing (endOf held))) t

theorem Whole.repaired {ending : Token} {held : List Tree} {t : Tree} (h : Whole ending held t) :
    Repaired ending held t :=
  ⟨0, by simpa using h⟩

end Tree

namespace State

/-- The states in which a list is open and its next element is awaited or has just been read. -/
def isInside : State → Bool
  | .opened => true
  | .headed _ => true
  | .applied _ => true
  | .firstArgument _ => true
  | .nextArgument _ => true
  | _ => false

theorem goto_sourceFile {b s : State} (h : b.goto .sourceFile = some s) : s = .finished := by
  cases b <;> cases h
  rfl

theorem goto_arguments {b s : State} (h : b.goto .arguments = some s) : s.isInside = true := by
  cases b <;> cases h
  rfl

/-- Before the end of the text only an open list is left as it is, or a finished file. -/
theorem isInside_of_reduction?_ending {s : State} (h : s.reduction? .ending = none)
    (hs : s ≠ .finished) : s.isInside = true := by
  cases s <;> first | exact absurd rfl hs | rfl | cases h

theorem arguments_of_completion? {s : State} {p : Production} (hs : s.isInside = true)
    (h : s.completion? = some p) : p.result = .arguments := by
  obtain ⟨t, -, ht⟩ := reduction?_of_completion? h
  have := production?_of_reduction? ht
  cases s <;> cases hs <;> cases this <;> rfl

theorem insertion?_closing {s : State} (hs : s.isInside = true) (h : s.completion? = none) :
    s.insertion? = some .closing := by
  cases s with
  | opened => exact (insertion?_open .list).1
  | headed e => exact (insertion?_open e).2.1
  | applied e => exact (insertion?_open e).2.2
  | firstArgument e => cases e <;> cases h
  | nextArgument e => cases e <;> cases h
  | _ => cases hs

theorem isInside_of_completion? {s : State} (h : s.completion? = none) (hs : s ≠ .finished)
    (start : s ≠ .start) (sequence : s ≠ .sequence) : s.isInside = true := by
  cases s with
  | start => exact absurd rfl start
  | sequence => exact absurd rfl sequence
  | finished => exact absurd rfl hs
  | firstOf e => cases e <;> cases h
  | nextOf e => cases e <;> cases h
  | word k => cases k <;> cases h
  | closedEmpty => cases h
  | closedHead e => cases e <;> cases h
  | closedFull e => cases e <;> cases h
  | opened => rfl
  | headed e => rfl
  | applied e => rfl
  | firstArgument e => rfl
  | nextArgument e => rfl

end State

namespace Stack

variable {s : Stack} {row : List Tree}

theorem Open.position (hs : s.Open row) : s.position = Tree.endOf row := by
  cases s with
  | nil =>
      rw [← hs.leaves]
      rfl
  | cons f s =>
      have mem : f.tree ∈ trees (f :: s) := by simp
      obtain ⟨first, last, head, tail, span⟩ := (hs.formed _ mem).extent (hs.parts _ mem)
      have ne := (hs.formed _ mem).leaves_ne_nil (hs.parts _ mem)
      rw [← hs.leaves, trees_cons, Tree.endOf, Tree.getLast?_leavesRow_append ne, tail, position,
        span]
      rfl

theorem Holds.complete_inside (hs : s.Holds row) (h : s.state.isInside = true) :
    s.complete.state.isInside = true := by
  have kept : s.complete.Holds row ∧ s.complete.state.isInside = true := by
    apply reduceWhile_induction (fun u => u.Holds row ∧ u.state.isInside = true) _ _ s ⟨hs, h⟩
    rintro u p u' ⟨hu, inside⟩ hp hr
    obtain ⟨t, -, ht⟩ := State.reduction?_of_completion? hp
    have hp' := State.production?_of_reduction? ht
    have reduced := hu.viable.reduced hp' hr
    obtain ⟨b, goes⟩ := reduced.goto
    rw [State.arguments_of_completion? inside hp] at goes
    exact ⟨hu.reduced hp' reduced, State.goto_arguments goes⟩
  exact kept.2

/-- From the start, or after the last expression, the end of the text finishes the file. -/
theorem Holds.settle_ending (hs : s.Holds row) (h : s.state = .start ∨ s.state = .sequence) :
    (s.settle .ending).state = .finished := by
  have complete : ∃ p, s.state.reduction? .ending = some p ∧ p.result = .sourceFile ∧
      s.state.rank = 1 := by
    rcases h with h | h
    · exact ⟨.emptyFile, by rw [h]; rfl, rfl, by rw [h]; rfl⟩
    · exact ⟨.file, by rw [h]; rfl, rfl, by rw [h]; rfl⟩
  obtain ⟨p, hp, file, rank⟩ := complete
  obtain ⟨s', hr, reduced⟩ := hs.viable.reduce? (State.production?_of_reduction? hp)
  obtain ⟨b, goes⟩ := reduced.goto
  have once : s.settle .ending = s' := by
    simp [Stack.settle, rank, reduceWhile, hp, hr]
  rw [once]
  exact State.goto_sourceFile (file ▸ goes)

/-! ## Going back -/

theorem peel?_append {s' : Stack} (h : s.peel? = some s') :
    ∃ up, s = up ++ s' ∧ ∃ t ∈ trees up, t.isExtra = false := by
  induction s with
  | nil => cases h
  | cons f s ih =>
      rw [peel?] at h
      by_cases extra : f.tree.isExtra = true
      · rw [if_pos extra] at h
        obtain ⟨up, split, t, mem, counts⟩ := ih h
        exact ⟨f :: up, by rw [split]; rfl, t, by simp [mem], counts⟩
      · rw [if_neg extra, Option.some.injEq] at h
        exact ⟨[f], by rw [h]; rfl, f.tree, by simp, by simpa using extra⟩

theorem mem_suffixes {n : Nat} {u : Stack} (h : u ∈ suffixes n s) : ∃ up, s = up ++ u := by
  induction n generalizing s with
  | zero =>
      obtain rfl := List.mem_singleton.1 h
      exact ⟨[], rfl⟩
  | succ n ih =>
      rw [suffixes] at h
      cases hp : s.peel? with
      | none =>
          rw [hp] at h
          obtain rfl := List.mem_singleton.1 h
          exact ⟨[], rfl⟩
      | some s' =>
          rw [hp] at h
          rcases List.mem_cons.1 h with rfl | h
          · exact ⟨[], rfl⟩
          · obtain ⟨up, split, -⟩ := peel?_append hp
            obtain ⟨up', split'⟩ := ih h
            exact ⟨up ++ up', by rw [split, split', List.append_assoc]⟩

theorem mem_suffixes_tail {n : Nat} {u : Stack} (h : u ∈ (suffixes n s).tail) :
    ∃ up, s = up ++ u ∧ ∃ t ∈ trees up, t.isExtra = false := by
  cases n with
  | zero => cases h
  | succ n =>
      rw [suffixes] at h
      cases hp : s.peel? with
      | none =>
          rw [hp] at h
          cases h
      | some s' =>
          rw [hp] at h
          obtain ⟨up, split, t, mem, counts⟩ := peel?_append hp
          obtain ⟨up', split'⟩ := mem_suffixes h
          refine ⟨up ++ up', by rw [split, split', List.append_assoc], t, ?_, counts⟩
          rw [trees_append]
          exact List.mem_append_right _ mem

theorem above_append (up below : Stack) : above (up ++ below) below = trees up := by
  rw [above, List.length_append, Nat.add_sub_cancel, List.take_left]

theorem Open.ofAppend {up below : Stack} (hs : Open (up ++ below) row) :
    below.Open (Tree.leavesRow below.trees) := by
  refine ⟨⟨hs.viable.ofAppend, ?_, rfl⟩, hs.viable.ne_finished hs.unfinished⟩
  intro t ht
  apply hs.formed
  rw [trees_append]
  exact List.mem_append_left _ ht

end Stack

namespace Completion

open MettaSyntax.Tree

variable {ending : Token} {s : Stack} {row : List Tree}

theorem broken_whole (hs : s.Open row) {more : List Tree}
    (formed : ∀ t ∈ more, t.Formed ∧ t.isPart = true) :
    (broken (s.trees ++ more) ending).Whole ending (row ++ leavesRow more) := by
  refine ⟨.error true, s.trees ++ more, rfl, ?_, ?_, .inl rfl⟩
  · intro t ht
    rcases List.mem_append.1 ht with ht | ht
    · exact ⟨hs.formed t ht, hs.parts t ht⟩
    · exact formed t ht
  · rw [leavesRow_append, hs.leaves]

theorem symbol_leaf_ne {n : Nonterminal} (token : Token) (missing : Bool) :
    (leaf token missing).symbol ≠ .nonterminal n := by
  rw [Tree.symbol]
  cases token.kind <;> simp [TokenKind.toSymbol]

theorem spells_emptyFile {xs : List Symbol} (h : Production.emptyFile.spells xs = true) :
    xs = [] := by
  cases xs with
  | nil => rfl
  | cons x xs => cases h

theorem spells_file {xs : List Symbol} (h : Production.file.spells xs = true) :
    xs = [.nonterminal .expressions] := by
  unfold Production.spells at h
  split at h <;> simp_all

/-- The root takes the place of the finished file among the extras on both sides of it. -/
theorem whole?_eq (hs : s.Holds row) (h : ending.kind = .ending) {t : Tree}
    (ht : whole? s ending = some t) :
    ∃ (below : Stack) (file : Tree) (after : List Tree), below.Viable ∧ below.state = .start ∧
      (s.settle .ending).trees = below.trees ++ file :: after ∧
      file.symbol = .nonterminal .sourceFile ∧ (∀ u ∈ after, u.isExtra = true) ∧
      t = .ofChildren (.production .file) .origin
        (below.trees ++ file.children ++ after ++ [ofToken ending]) := by
  have held := hs.settle .ending
  unfold whole? at ht
  generalize s.settle .ending = u at ht held
  simp only [Option.ite_none_right_eq_some, Option.some.injEq] at ht
  obtain ⟨accepts, rfl⟩ := ht
  have finished : u.state = .finished := by
    cases hu : u.state <;> rw [hu] at accepts <;> first | rfl | cases accepts
  obtain ⟨below, body, taken, start⟩ := held.viable.finished finished
  obtain ⟨file, after, split, counts, symbol, rest⟩ :=
    exists_head_of_counted taken.head taken.counted
  have extra := counted_eq_nil_iff.1 rest
  have all : ∀ e ∈ after ++ [ofToken ending], e.isExtra = true := by
    intro e he
    rcases List.mem_append.1 he with he | he
    · exact extra e he
    · obtain rfl := List.mem_singleton.1 he
      simp [ofToken, isExtra, h]
  refine ⟨below, file, after, taken.viable, start, by rw [taken.trees, split], symbol, extra, ?_⟩
  have row : u.trees ++ [ofToken ending] = below.trees ++ file :: (after ++ [ofToken ending]) := by
    rw [taken.trees, split]
    simp
  rw [unfold, row, splitTrailing_counted counts _ all]
  simp

theorem whole?_whole (hs : s.Open row) (h : ending.kind = .ending) {t : Tree}
    (ht : whole? s ending = some t) : t.Whole ending row := by
  have held := hs.toHolds.settle .ending
  obtain ⟨below, file, after, viable, start, split, symbol, extra, rfl⟩ :=
    whole?_eq hs.toHolds h ht
  have formed := held.formed
  rw [split] at formed
  simp only [List.mem_append, List.mem_cons] at formed
  have formedFile := formed file (.inr (.inl rfl))
  have partsBelow : ∀ v ∈ below.trees, v.isPart = true :=
    viable.parts (fun v hv => formed v (.inl hv)) (by simp [start])
  have partsAfter : ∀ v ∈ after, v.isPart = true := by
    intro v hv
    have extra := extra v hv
    cases v with
    | leaf token missing => rfl
    | node label span children =>
        cases label with
        | production p => cases extra
        | error whole => exact extra
        | skipped => rfl
  refine ⟨.production .file, below.trees ++ file.children ++ after, rfl, ?_, ?_, .inr ⟨rfl, ?_⟩⟩
  · intro v hv
    simp only [List.mem_append] at hv
    rcases hv with (hv | hv) | hv
    · exact ⟨formed v (.inl hv), partsBelow v hv⟩
    · exact ⟨formedFile.children v hv, formedFile.parts v hv⟩
    · exact ⟨formed v (.inr (.inr hv)), partsAfter v hv⟩
  · have leaves : file.leaves = leavesRow file.children := by
      cases file with
      | leaf token missing => exact absurd symbol (symbol_leaf_ne token missing)
      | node label span children => rw [Tree.leaves, Tree.children]
    rw [← held.leaves, split]
    simp [leaves]
  · have around : counted (below.trees ++ file.children ++ after) = counted file.children := by
      rw [counted_append, counted_append, counted_eq_nil_iff.2 (viable.extras start),
        counted_eq_nil_iff.2 extra]
      simp
    rw [around]
    cases formedFile with
    | @leaf token missing inside miss => exact absurd symbol (symbol_leaf_ne token missing)
    | @node label span children p admits place parts formed =>
        cases label with
        | production q =>
            rw [Tree.symbol, Label.symbol, Symbol.nonterminal.injEq] at symbol
            have spelt := admits.1
            rw [Tree.children]
            cases q <;> cases symbol
            · exact .inl (spells_emptyFile spelt)
            · exact .inr (spells_file spelt)
        | error whole => cases symbol
        | skipped => cases symbol

/-- Giving up what lies above a part of the stack, and more, loses none of its leaves. -/
theorem giveUp_open {up below : Stack} (hs : Stack.Open (up ++ below) row) {more : List Tree}
    (formed : ∀ t ∈ more, t.Formed ∧ t.isPart = true)
    (counts : ∃ t ∈ up.trees ++ more, t.isExtra = false) :
    (below.pushError (up.trees ++ more)).Open (row ++ leavesRow more) := by
  have all : ∀ u ∈ up.trees ++ more, u.Formed ∧ u.isPart = true := by
    intro u hu
    rcases List.mem_append.1 hu with hu | hu
    · have mem : u ∈ Stack.trees (up ++ below) := by
        rw [Stack.trees_append]
        exact List.mem_append_right _ hu
      exact ⟨hs.formed u mem, hs.parts u mem⟩
    · exact formed u hu
  have held : leavesRow below.trees ++ leavesRow (up.trees ++ more) = row ++ leavesRow more := by
    rw [← hs.leaves, Stack.trees_append, leavesRow_append, leavesRow_append, List.append_assoc]
  exact held ▸ (hs.ofAppend.pushError all counts).1

theorem givenUp?_whole {up below : Stack} (hs : Stack.Open (up ++ below) row)
    (h : ending.kind = .ending) {more : List Tree}
    (formed : ∀ t ∈ more, t.Formed ∧ t.isPart = true)
    (counts : ∃ t ∈ up.trees ++ more, t.isExtra = false) {t : Tree}
    (ht : givenUp? (up ++ below) below more ending = some t) :
    t.Whole ending (row ++ leavesRow more) := by
  rw [givenUp?, Stack.above_append] at ht
  exact whole?_whole (giveUp_open hs formed counts) h ht

/-- The stack with the token that the innermost open list waits for put on it. -/
def missing? (s : Stack) : Option Stack := do
  let kind ← s.state.insertion?
  let next ← s.state.shift? kind
  return ⟨.missingAt kind s.position, next⟩ :: s

theorem supply?_eq (s : Stack) : supply? s = (missing? s).map Stack.complete := by
  unfold supply? missing?
  cases s.state.insertion? with
  | none => rfl
  | some kind => cases h : s.state.shift? kind <;> simp [h]

theorem missing?_open (hs : s.Open row) (inside : s.state.isInside = true)
    (done : s.state.completion? = none) {r : Stack} (h : missing? s = some r) :
    r.Open (row ++ [.missingAt .closing s.position]) := by
  rw [missing?, State.insertion?_closing inside done, Option.bind_eq_bind, Option.bind_some] at h
  obtain ⟨next, shift, rest⟩ := Option.bind_eq_some_iff.1 h
  simp only [Option.pure_def, Option.some.injEq] at rest
  subst rest
  exact hs.shift (t := ⟨.closing, .empty s.position⟩) shift (.missingAt _)

/-- Supplying what an open list waits for adds one missing parenthesis. -/
theorem supply?_open {n : Nat}
    (hs : s.Open (row ++ List.replicate n (missingAt .closing (endOf row))))
    (inside : s.state.isInside = true) (done : s.state.completion? = none) {r : Stack}
    (hr : supply? s = some r) :
    r.Open (row ++ List.replicate (n + 1) (missingAt .closing (endOf row))) ∧
      r.state.completion? = none := by
  have place : endOf (row ++ List.replicate n (missingAt .closing (endOf row))) = endOf row := by
    cases n with
    | zero => simp
    | succ n =>
        rw [List.replicate_succ', ← List.append_assoc, endOf_append_singleton]
        rfl
  have same : missingAt .closing s.position = missingAt .closing (endOf row) := by
    rw [hs.position, place]
  rw [supply?_eq] at hr
  obtain ⟨missing, found, rfl⟩ := Option.map_eq_some_iff.1 hr
  have shifted := missing?_open hs inside done found
  rw [same, List.append_assoc, ← List.replicate_succ'] at shifted
  exact ⟨shifted.complete, shifted.completed⟩

theorem isInside_of_whole?_none (hs : s.Open row) (done : s.state.completion? = none)
    (h : whole? s ending = none) : s.state.isInside = true := by
  have unsettled : ¬(s.state = .start ∨ s.state = .sequence) := by
    intro file
    have finished := hs.settle_ending file
    rw [whole?] at h
    simp [finished, State.action, State.structuralAction] at h
  exact State.isInside_of_completion? done hs.unfinished (fun start => unsettled (.inl start))
    fun sequence => unsettled (.inr sequence)

/-- Where the text may not end, a list is open. -/
theorem settled_of_whole?_none (hs : s.Open row) (h : whole? s ending = none) :
    (s.settle .ending).Open row ∧ (s.settle .ending).state.isInside = true := by
  have settled : (s.settle .ending).Open row := by
    refine ⟨hs.toHolds.settle _, fun finished => ?_⟩
    rw [whole?] at h
    simp [finished, State.action, State.structuralAction] at h
  exact ⟨settled, State.isInside_of_reduction?_ending (hs.settled _) settled.unfinished⟩

theorem wayBack?_mem {supplied : Option Stack} {best : Option Tree} {depth : Nat}
    {ways : List Stack} {u : Stack} (h : wayBack? s supplied best depth ways = some u) :
    u ∈ ways := by
  induction ways generalizing depth with
  | nil => cases h
  | cons below more ih =>
      rw [wayBack?] at h
      split at h
      · exact List.mem_cons_of_mem _ (ih h)
      · split at h
        · cases h
        · split at h
          · rw [Option.some.injEq] at h
            exact h ▸ List.mem_cons_self
          · exact List.mem_cons_of_mem _ (ih h)

theorem keep_of {P : Tree → Prop} {best other : Option Tree} (hb : ∀ t ∈ best, P t)
    (ho : ∀ t ∈ other, P t) : ∀ t ∈ keep best other, P t := by
  cases best with
  | none => exact ho
  | some b =>
      cases other with
      | none => exact hb
      | some o =>
          intro t ht
          obtain rfl : b.prefer o = t := Option.some.inj ht
          unfold Tree.prefer
          split
          · exact ho o rfl
          · split
            · exact hb b rfl
            · split
              · exact ho o rfl
              · exact hb b rfl

theorem keep_isSome {best other : Option Tree} (h : best.isSome = true ∨ other.isSome = true) :
    (keep best other).isSome = true := by
  cases best with
  | none => exact h.resolve_left (by simp)
  | some b => cases other <;> rfl

theorem close_isSome (n : Nat) {best : Option Tree} (h : best.isSome = true ∨ 0 < n) :
    (close ending n s best).isSome = true := by
  fun_induction close ending n s best with
  | case1 s best => exact h.resolve_right (by omega)
  | case2 s best n best' stop => exact keep_isSome (.inr rfl)
  | case3 s best n supplied back best' go whole best'' r hr hw ih =>
      exact ih (.inl (keep_isSome (.inl (keep_isSome (.inl (keep_isSome (.inr rfl)))))))
  | case4 s best n supplied back best' go whole best'' no =>
      exact keep_isSome (.inl (keep_isSome (.inl (keep_isSome (.inr rfl)))))

section Round

variable {m : Nat} (hs : s.Open (row ++ List.replicate m (missingAt .closing (endOf row))))
include hs

theorem broken_repaired : (broken s.trees ending).Repaired ending row := by
  have whole : (broken (s.trees ++ []) ending).Whole ending (_ ++ leavesRow []) :=
    broken_whole hs (by simp)
  simp only [List.append_nil, leavesRow_nil] at whole
  exact ⟨m, whole⟩

theorem supplied_repaired (h : ending.kind = .ending) (inside : s.state.isInside = true)
    (done : s.state.completion? = none) :
    ∀ t ∈ (supply? s).bind (whole? · ending), t.Repaired ending row := by
  intro t ht
  obtain ⟨r, hr, whole⟩ := Option.bind_eq_some_iff.1 ht
  exact ⟨m + 1, whole?_whole (supply?_open hs inside done hr).1 h whole⟩

theorem back_repaired (h : ending.kind = .ending) {n depth : Nat} {supplied : Option Stack}
    {best : Option Tree} :
    ∀ t ∈ (wayBack? s supplied best depth (s.suffixes n).tail).bind (givenUp? s · [] ending),
      t.Repaired ending row := by
  intro t ht
  obtain ⟨u, back, given⟩ := Option.bind_eq_some_iff.1 ht
  obtain ⟨up, rfl, v, mem, counts⟩ := Stack.mem_suffixes_tail (wayBack?_mem back)
  have whole := givenUp?_whole hs h (by simp) ⟨v, List.mem_append_left _ mem, counts⟩ given
  simp only [leavesRow_nil, List.append_nil] at whole
  exact ⟨m, whole⟩

end Round

theorem close_repaired (h : ending.kind = .ending) (n m : Nat) {best : Option Tree}
    (hs : s.Open (row ++ List.replicate m (missingAt .closing (endOf row))))
    (inside : s.state.isInside = true) (done : s.state.completion? = none)
    (hb : ∀ t ∈ best, t.Repaired ending row) :
    ∀ t ∈ close ending n s best, t.Repaired ending row := by
  have some_of : ∀ {t u : Tree}, t.Repaired ending row → u ∈ some t → u.Repaired ending row := by
    rintro t u ht ⟨rfl⟩
    exact ht
  fun_induction close ending n s best generalizing m with
  | case1 s best => exact hb
  | case2 s best n best' stop => exact keep_of hb fun _ => some_of (broken_repaired hs)
  | case3 s best n supplied back best' go whole best'' r hr hw ih =>
      -- the loop goes on with one more missing parenthesis, which is all that changes
      obtain ⟨opened, completed⟩ := supply?_open hs inside done hr
      have closed : whole? r ending = none := by
        rw [← hw]
        simp only [whole, hr, Option.bind_some]
      apply ih (m + 1) opened (isInside_of_whole?_none opened completed closed) completed
      refine keep_of (keep_of (keep_of hb fun _ => some_of (broken_repaired hs)) ?_) ?_
      · exact supplied_repaired hs h inside done
      · exact back_repaired hs h
  | case4 s best n supplied back best' go whole best'' no =>
      refine keep_of (keep_of (keep_of hb fun _ => some_of (broken_repaired hs)) ?_) ?_
      · exact supplied_repaired hs h inside done
      · exact back_repaired hs h

theorem abandon_repaired (h : ending.kind = .ending) (hs : s.Open row) {k : Skipping}
    (hk : k.Formed) :
    ∃ t, abandon ending s k = some t ∧ t.Repaired ending (row ++ leavesRow k.row) := by
  have all : ∀ t ∈ abandon ending s k, t.Repaired ending (row ++ leavesRow k.row) := by
    unfold abandon
    apply keep_of
    · rintro t ⟨rfl⟩
      exact (broken_whole hs hk.row).repaired
    · intro t ht
      obtain ⟨u, back, given⟩ := Option.bind_eq_some_iff.1 ht
      obtain ⟨up, rfl⟩ := Stack.mem_suffixes (List.mem_of_find?_eq_some back)
      have counts : ∃ t ∈ Stack.trees up ++ k.row, t.isExtra = false :=
        ⟨k.run, List.mem_append_right _ List.mem_cons_self, hk.counts⟩
      exact (givenUp?_whole hs h hk.row counts given).repaired
  have there : (abandon ending s k).isSome = true := keep_isSome (.inl rfl)
  obtain ⟨t, ht⟩ := Option.isSome_iff_exists.1 there
  exact ⟨t, ht, all t ht⟩

theorem finish_repaired (h : ending.kind = .ending) {p : Progress} (hp : p.Holds row) :
    ∃ t, finish ending p = some t ∧ t.Repaired ending row := by
  obtain ⟨s, skipping⟩ := p
  cases skipping with
  | some k =>
      obtain ⟨hk, read, hs, rfl⟩ := hp
      exact abandon_repaired h hs hk
  | none =>
      have hs : s.Open row := hp
      rw [finish]
      cases hw : whole? s ending with
      | some t => exact ⟨t, rfl, (whole?_whole hs h hw).repaired⟩
      | none =>
          obtain ⟨settled, inside⟩ := settled_of_whole?_none hs hw
          have closed : ∀ t ∈ close ending rounds (s.settle .ending).complete none,
              t.Repaired ending row :=
            close_repaired h rounds 0 (by simpa using settled.complete)
              (settled.complete_inside inside) settled.completed (by simp)
          have there : (close ending rounds (s.settle .ending).complete none).isSome = true :=
            close_isSome rounds (.inr (by decide))
          obtain ⟨t, ht⟩ := Option.isSome_iff_exists.1 there
          exact ⟨t, ht, closed t ht⟩

end Completion

/-- Every text has a tree, over its tokens and nothing else but missing closing parentheses. -/
theorem parse_repaired (text : List Char) :
    (parse text).Repaired (Lexer.endToken text) ((Lexer.tokens text).map .ofToken) := by
  have held := Progress.readAll_holds (Lexer.tokens_ne_ending text)
  have ending : (Lexer.endToken text).kind = .ending := rfl
  obtain ⟨t, finished, repaired⟩ := Completion.finish_repaired ending held
  rw [parse, parse?, finished]
  exact repaired

end MettaSyntax
