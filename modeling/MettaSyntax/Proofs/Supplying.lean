import MettaSyntax.Proofs.Coverage
import MettaSyntax.Proofs.Defining
import MettaSyntax.Proofs.Items
import MettaSyntax.Proofs.Landmarks
import MettaSyntax.Proofs.Parents

/-! # What may be missing

At the end of a text the parser supplies the closing parenthesis of an open list, and completes the
list at once.  So a missing token is a child of a list, and of nothing else, whatever the parser gives
up as an error besides: `Tree.Firm` says so of a tree, and is kept by every step. -/

set_option autoImplicit false

namespace MettaSyntax

open MettaSyntax.Tree

namespace Tree

/-- Every missing token below a tree is a child of a list. -/
inductive Sealed : Tree → Prop
  | leaf (token : Token) (missing : Bool) : Sealed (.leaf token missing)
  | node {label : Label} {span : Span} {row : List Tree}
      (own : label.symbol = .nonterminal .list ∨ ∀ t ∈ row, t.isMissing = false)
      (below : ∀ t ∈ row, Sealed t) : Sealed (.node label span row)

/-- A tree that may stand anywhere: it is not missing, and what is missing below it is sealed. -/
structure Firm (t : Tree) : Prop where
  sealed : t.Sealed
  present : t.isMissing = false

theorem Firm.ofToken (token : Token) : (ofToken token).Firm :=
  ⟨.leaf token false, rfl⟩

theorem Firm.ofChildren {row : List Tree} (h : ∀ t ∈ row, t.Firm) (label : Label) (p : Position) :
    (ofChildren label p row).Firm :=
  ⟨.node (.inr fun t ht => (h t ht).present) fun t ht => (h t ht).sealed, rfl⟩

theorem Sealed.children {t : Tree} (h : t.Sealed) (other : t.symbol ≠ .nonterminal .list) :
    ∀ c ∈ t.children, c.Firm := by
  cases h with
  | leaf token missing => simp [Tree.children]
  | node own below => exact fun c hc => ⟨below c hc, own.resolve_left other c hc⟩

theorem Sealed.of_mem_nodes {t : Tree} (h : t.Sealed) : ∀ u ∈ t.nodes, u.Sealed := by
  induction h with
  | leaf token missing =>
      intro u hu
      rw [nodes] at hu
      exact List.mem_singleton.1 hu ▸ .leaf token missing
  | node own below ih =>
      intro u hu
      rw [nodes] at hu
      rcases List.mem_cons.1 hu with rfl | hu
      · exact .node own below
      · obtain ⟨c, hc, inC⟩ := mem_nodesRow.1 hu
        exact ih c hc u inC

/-- What is missing is no extra. -/
theorem Formed.present_of_isExtra {t : Tree} (h : t.Formed) (extra : t.isExtra = true) :
    t.isMissing = false := by
  cases h with
  | @leaf token missing inside miss =>
      cases missing with
      | false => rfl
      | true =>
          rw [isExtra, (miss rfl).1] at extra
          cases extra
  | node p admits place parts formed => rfl

end Tree

namespace Stack

/-- Every tree on the stack is firm. -/
def Firm (s : Stack) : Prop :=
  ∀ t ∈ s.trees, t.Firm

variable {s s' : Stack} {row : List Tree} {p : Production}

theorem Firm.push {f : Frame} (hs : s.Firm) (h : f.tree.Firm) : Firm (f :: s) :=
  forall_trees_cons.2 ⟨hs, h⟩

theorem Firm.reduced (hs : s.Firm) (h : Reduced s p s') : s'.Firm := by
  obtain ⟨below, body, extras, next, rfl, split, -⟩ := h
  unfold Firm at hs
  rw [split] at hs
  simp only [List.mem_append] at hs
  intro t ht
  rw [trees_pushAll, trees_cons] at ht
  simp only [List.mem_append, List.mem_singleton] at ht
  rcases ht with (ht | rfl) | ht
  · exact hs t (.inl (.inl ht))
  · exact .ofChildren (fun u hu => hs u (.inl (.inr hu))) _ _
  · exact hs t (.inr ht)

theorem Firm.takeError (hs : s.Firm) :
    (∀ t ∈ s.takeError.1, t.Firm) ∧ s.takeError.2.Firm := by
  rcases takeError_eq s with none | ⟨whole, span, children, state, below, rfl, taken⟩
  · rw [none]
    exact ⟨by simp, hs⟩
  · obtain ⟨rest, error⟩ := forall_trees_cons.1 hs
    rw [taken]
    exact ⟨error.sealed.children (by simp [Tree.symbol, Label.symbol]), rest⟩

theorem Firm.pushError {more : List Tree} (hs : s.Firm) (firm : ∀ t ∈ more, t.Firm) :
    (s.pushError more).Firm := by
  obtain ⟨broken, rest⟩ := hs.takeError
  have split := splitTrailing_append (s.takeError.1 ++ more)
  have all : ∀ t ∈ s.takeError.1 ++ more, t.Firm := by
    intro t ht
    rcases List.mem_append.1 ht with ht | ht
    · exact broken t ht
    · exact firm t ht
  rw [← split] at all
  intro t ht
  rw [Stack.pushError, trees_pushAll] at ht
  simp only [List.mem_append] at ht
  rcases ht with below | error | extra
  · exact rest t below
  · split at error
    · cases error
    · rw [List.mem_singleton.1 error]
      exact .ofChildren (fun u hu => all u (List.mem_append_left _ hu)) _ _
  · exact all t (List.mem_append_right _ extra)

/-- A list takes in the closing parenthesis that was supplied for it. -/
theorem Firm.reduced_missing {f : Frame} (hs : s.Firm) (held : Holds (f :: s) row)
    (missing : f.tree.Sealed) (list : p.result = .list) (h : Reduced (f :: s) p s') : s'.Firm := by
  obtain ⟨below, body, extras, next, rfl, split, admits, extra, -⟩ := h
  obtain ⟨inner, spelt, -⟩ := inside_of_spells list admits.1
  have ne : body ≠ [] := by
    rintro rfl
    rw [counted_nil] at spelt
    cases spelt
  have known : ∀ t ∈ trees s ++ [f.tree], t.Sealed ∧ t.Formed := by
    intro t ht
    refine ⟨?_, held.formed t (by rwa [trees_cons])⟩
    rcases List.mem_append.1 ht with ht | ht
    · exact (hs t ht).sealed
    · exact List.mem_singleton.1 ht ▸ missing
  rw [trees_cons, List.append_assoc] at split
  -- the body is not empty, so what is below it was there before
  obtain ⟨more, kept⟩ : below.trees <+: s.trees := by
    have shorter : below.trees.length ≤ s.trees.length := by
      have total := congrArg List.length split
      have pos := List.length_pos_iff.2 ne
      simp only [List.length_append, List.length_singleton] at total
      omega
    exact List.prefix_of_prefix_length_le ⟨_, split.symm⟩ (List.prefix_append _ _) shorter
  rw [split] at known
  simp only [List.mem_append] at known
  intro t ht
  rw [trees_pushAll, trees_cons] at ht
  simp only [List.mem_append, List.mem_singleton] at ht
  rcases ht with (ht | rfl) | ht
  · exact hs t (kept ▸ List.mem_append_left _ ht)
  · refine ⟨.node (.inl ?_) fun u hu => (known u (.inr (.inl hu))).1, rfl⟩
    rw [Label.symbol, list]
  · obtain ⟨below, formed⟩ := known t (.inr (.inr ht))
    exact ⟨below, formed.present_of_isExtra (extra t ht)⟩

theorem Firm.settle (hs : s.Firm) (held : s.Holds row) (t : TokenKind) : (s.settle t).Firm :=
  held.settle_of (fun _ _ _ => Firm.reduced) hs t

theorem Firm.complete (hs : s.Firm) (held : s.Holds row) : s.complete.Firm :=
  held.complete_of (fun _ _ _ => Firm.reduced) hs

end Stack

/-! ## Reading -/

namespace Progress

/-- Whatever is on the stack or is being skipped is firm. -/
def Firm (p : Progress) : Prop :=
  p.stack.Firm ∧ ∀ k ∈ p.skipping, ∀ t ∈ k.row, t.Firm

variable {row : List Tree}

theorem firm_start (t : Token) : ∀ u ∈ (Skipping.start t).row, u.Firm := by
  intro u hu
  rw [List.mem_singleton.1 hu]
  exact .ofChildren (by simpa using Firm.ofToken t) _ _

theorem Firm.read {p : Progress} {t : Token} (hp : p.Firm) (held : p.Holds row)
    (ending : t.kind ≠ .ending) : (p.read t).Firm := by
  obtain ⟨s, skipping⟩ := p
  obtain ⟨firm, skipped⟩ := hp
  cases skipping with
  | none =>
      have hs : s.Open row := held
      show (readToken s t).Firm
      unfold readToken
      split
      · exact ⟨firm.push (.ofToken t), by simp⟩
      · have settled := firm.settle hs.toHolds t.kind
        cases shift : (s.settle t.kind).state.shift? t.kind with
        | some next =>
            simp only [shift]
            exact ⟨settled.push (.ofToken t), by simp⟩
        | none =>
            simp only [shift]
            refine ⟨settled.complete (hs.settle ending).toHolds, ?_⟩
            rintro k ⟨rfl⟩
            exact firm_start t
  | some k =>
      have row := skipped k rfl
      show (resume s k t).Firm
      unfold resume
      split
      · refine ⟨firm, ?_⟩
        rintro j ⟨rfl⟩ u hu
        rcases List.mem_cons.1 hu with rfl | hu
        · exact row _ List.mem_cons_self
        · rcases List.mem_append.1 hu with hu | hu
          · exact row u (List.mem_cons_of_mem _ hu)
          · exact List.mem_singleton.1 hu ▸ .ofToken t
      · cases shift : s.state.shift? t.kind with
        | some next =>
            exact ⟨(firm.pushError row).push (.ofToken t), by simp⟩
        | none =>
            refine ⟨firm, ?_⟩
            rintro j ⟨rfl⟩ u hu
            rw [List.mem_singleton.1 hu]
            refine .ofChildren (fun v hv => ?_) _ _
            rcases List.mem_append.1 hv with hv | hv
            · exact row v hv
            · exact firm_start t v hv

theorem Firm.foldl_read {p : Progress} {rest : List Token} (hp : p.Firm) (held : p.Holds row)
    (ending : ∀ t ∈ rest, t.kind ≠ .ending) : (rest.foldl Progress.read p).Firm := by
  induction rest generalizing p row with
  | nil => exact hp
  | cons t rest ih =>
      have inside := ending t List.mem_cons_self
      exact ih (hp.read held inside) (read_holds held inside) fun u hu =>
        ending u (List.mem_cons_of_mem _ hu)

end Progress

/-! ## Completing the tree -/

/-- A closing parenthesis closes a list. -/
theorem State.isClosed_of_shift? {b s : State} (h : b.shift? .closing = some s) :
    s.isClosed = true := by
  cases b <;> cases h <;> rfl

namespace Completion

variable {ending : Token} {s : Stack} {row : List Tree}

theorem firm_above {up below : Stack} (firm : Stack.Firm (up ++ below)) :
    (∀ t ∈ up.trees, t.Firm) ∧ below.Firm := by
  unfold Stack.Firm at firm
  rw [Stack.trees_append] at firm
  exact ⟨fun t ht => firm t (List.mem_append_right _ ht),
    fun t ht => firm t (List.mem_append_left _ ht)⟩

theorem broken_firm {more : List Tree} (firm : ∀ t ∈ more, t.Firm) :
    ∀ c ∈ (broken more ending).children, c.Firm := by
  intro c hc
  rcases List.mem_append.1 hc with hc | hc
  · exact firm c hc
  · exact List.mem_singleton.1 hc ▸ .ofToken ending

theorem whole?_firm (hs : s.Holds row) (firm : s.Firm) (h : ending.kind = .ending) :
    ∀ t ∈ whole? s ending, ∀ c ∈ t.children, c.Firm := by
  intro t ht c hc
  obtain ⟨below, file, after, -, -, split, symbol, -, rfl⟩ := whole?_eq hs h ht
  have settled := firm.settle hs .ending
  unfold Stack.Firm at settled
  rw [split] at settled
  simp only [List.mem_append, List.mem_cons] at settled
  rw [ofChildren, Tree.children] at hc
  simp only [List.mem_append, List.mem_singleton] at hc
  rcases hc with ((hc | hc) | hc) | rfl
  · exact settled c (.inl hc)
  · exact (settled file (.inr (.inl rfl))).sealed.children (by simp [symbol]) c hc
  · exact settled c (.inr (.inr hc))
  · exact .ofToken ending

theorem givenUp?_firm {up below : Stack} (hs : Stack.Open (up ++ below) row)
    (firm : Stack.Firm (up ++ below)) {more : List Tree}
    (formed : ∀ t ∈ more, t.Formed ∧ t.isPart = true) (good : ∀ t ∈ more, t.Firm)
    (counts : ∃ t ∈ up.trees ++ more, t.isExtra = false) (h : ending.kind = .ending) :
    ∀ t ∈ givenUp? (up ++ below) below more ending, ∀ c ∈ t.children, c.Firm := by
  obtain ⟨above, rest⟩ := firm_above firm
  have all : ∀ t ∈ up.trees ++ more, t.Firm := by
    intro t ht
    rcases List.mem_append.1 ht with ht | ht
    · exact above t ht
    · exact good t ht
  rw [givenUp?, Stack.above_append]
  exact whole?_firm (giveUp_open hs formed counts).toHolds (rest.pushError all) h

theorem abandon_firm (hs : s.Open row) (firm : s.Firm) {k : Skipping} (hk : k.Formed)
    (good : ∀ t ∈ k.row, t.Firm) (h : ending.kind = .ending) :
    ∀ t ∈ abandon ending s k, ∀ c ∈ t.children, c.Firm := by
  unfold abandon
  apply keep_of
  · rintro t ⟨rfl⟩
    apply broken_firm
    intro u hu
    rcases List.mem_append.1 hu with hu | hu
    · exact firm u hu
    · exact good u hu
  · intro t ht
    obtain ⟨u, back, given⟩ := Option.bind_eq_some_iff.1 ht
    obtain ⟨up, rfl⟩ := Stack.mem_suffixes (List.mem_of_find?_eq_some back)
    have counts : ∃ t ∈ Stack.trees up ++ k.row, t.isExtra = false :=
      ⟨k.run, List.mem_append_right _ List.mem_cons_self, hk.counts⟩
    exact givenUp?_firm hs firm hk.row good counts h t given

/-- A closing parenthesis that is supplied goes into a list at once. -/
theorem supply?_firm (hs : s.Open row) (firm : s.Firm) (inside : s.state.isInside = true)
    (done : s.state.completion? = none) {r : Stack} (hr : supply? s = some r) : r.Firm := by
  rw [supply?_eq] at hr
  obtain ⟨u, missing, rfl⟩ := Option.map_eq_some_iff.1 hr
  have held := (missing?_open hs inside done missing).toHolds
  rw [missing?, State.insertion?_closing inside done, Option.bind_eq_bind, Option.bind_some] at missing
  obtain ⟨next, shift, rest⟩ := Option.bind_eq_some_iff.1 missing
  simp only [Option.pure_def, Option.some.injEq] at rest
  subst rest
  have closed : next.isClosed = true := State.isClosed_of_shift? shift
  obtain ⟨p, hp, list⟩ := Stack.exists_closing (s := ⟨missingAt .closing s.position, next⟩ :: s) closed
  obtain ⟨u, hu, reduced⟩ := held.viable.reduce? hp
  have first := firm.reduced_missing held (.leaf _ _) list reduced
  have choice : next.completion? = some p := (State.completion?_of_isClosed closed).trans hp
  have steps : Stack.complete (⟨missingAt .closing s.position, next⟩ :: s) =
      Stack.reduceWhile State.completion? 2 u := by
    have rank : next.rank = 3 := State.rank_of_isClosed closed
    have top : Stack.state (⟨missingAt .closing s.position, next⟩ :: s) = next := rfl
    rw [Stack.complete, top, rank, Stack.reduceWhile, top, choice, Option.bind_some, hu]
  rw [steps]
  refine (held.reduced hp reduced).reduceWhile_of (fun _ _ _ => Stack.Firm.reduced) ?_ first 2
  intro state q hq
  obtain ⟨t, -, ht⟩ := State.reduction?_of_completion? hq
  exact State.production?_of_reduction? ht

section Round

variable (hs : s.Open row) (firm : s.Firm) (h : ending.kind = .ending)
include hs firm h

theorem supplied_firm (inside : s.state.isInside = true) (done : s.state.completion? = none) :
    ∀ t ∈ (supply? s).bind (whole? · ending), ∀ c ∈ t.children, c.Firm := by
  intro t ht
  obtain ⟨r, hr, whole⟩ := Option.bind_eq_some_iff.1 ht
  have opened := (supply?_open (n := 0) (by simpa using hs) inside done hr).1
  exact whole?_firm opened.toHolds (supply?_firm hs firm inside done hr) h t whole

theorem back_firm {n depth : Nat} {supplied : Option Stack} {best : Option Tree} :
    ∀ t ∈ (wayBack? s supplied best depth (s.suffixes n).tail).bind (givenUp? s · [] ending),
      ∀ c ∈ t.children, c.Firm := by
  intro t ht
  obtain ⟨u, back, given⟩ := Option.bind_eq_some_iff.1 ht
  obtain ⟨up, rfl, v, mem, counts⟩ := Stack.mem_suffixes_tail (wayBack?_mem back)
  exact givenUp?_firm hs firm (by simp) (by simp) ⟨v, List.mem_append_left _ mem, counts⟩ h t given

end Round

theorem close_firm (n : Nat) {best : Option Tree} (hs : s.Open row) (firm : s.Firm)
    (h : ending.kind = .ending) (inside : s.state.isInside = true)
    (done : s.state.completion? = none) (hb : ∀ t ∈ best, ∀ c ∈ t.children, c.Firm) :
    ∀ t ∈ close ending n s best, ∀ c ∈ t.children, c.Firm := by
  have all : ∀ {s : Stack}, s.Firm → ∀ t ∈ some (broken s.trees ending), ∀ c ∈ t.children, c.Firm := by
    rintro s firm t ⟨rfl⟩
    exact broken_firm firm
  fun_induction close ending n s best generalizing row with
  | case1 s best => exact hb
  | case2 s best n best' => exact keep_of hb (all firm)
  | case3 s best n supplied back best' go whole best'' r hr hw =>
      rename_i ih
      obtain ⟨opened, completed⟩ := supply?_open (n := 0) (by simpa using hs) inside done hr
      have closed : whole? r ending = none := by
        rw [← hw]
        simp only [whole, hr, Option.bind_some]
      apply ih opened (supply?_firm hs firm inside done hr)
        (isInside_of_whole?_none opened completed closed) completed
      refine keep_of (keep_of (keep_of hb (all firm)) ?_) ?_
      · exact supplied_firm hs firm h inside done
      · exact back_firm hs firm h
  | case4 s best n supplied back best' go whole best'' =>
      refine keep_of (keep_of (keep_of hb (all firm)) ?_) ?_
      · exact supplied_firm hs firm h inside done
      · exact back_firm hs firm h

theorem finish_firm {p : Progress} (firm : p.Firm) (held : p.Holds row) (h : ending.kind = .ending) :
    ∀ t ∈ finish ending p, ∀ c ∈ t.children, c.Firm := by
  obtain ⟨s, skipping⟩ := p
  obtain ⟨firm, skipped⟩ := firm
  cases skipping with
  | some k =>
      obtain ⟨hk, read, hs, -⟩ := held
      exact abandon_firm hs firm hk (skipped k rfl) h
  | none =>
      have hs : s.Open row := held
      intro t ht
      rw [finish] at ht
      cases hw : whole? s ending with
      | some u =>
          simp only [hw, Option.mem_some_iff] at ht
          exact whole?_firm hs.toHolds firm h t (hw.trans (congrArg some ht))
      | none =>
          simp only [hw] at ht
          obtain ⟨settled, inside⟩ := settled_of_whole?_none hs hw
          exact close_firm rounds settled.complete
            ((firm.settle hs.toHolds .ending).complete settled.toHolds) h
            (settled.complete_inside inside) settled.completed (by simp) t ht

end Completion

/-- The root of a tree is no list and is not missing, and neither is any child of it. -/
theorem parse_firm (text : List Char) :
    (parse text).Firm ∧ ∀ c ∈ (parse text).children, c.Firm := by
  have inside := Lexer.tokens_ne_ending text
  have ending : (Lexer.endToken text).kind = .ending := rfl
  have start : Progress.start.Firm := ⟨by simp [Stack.Firm, Progress.start], by simp [Progress.start]⟩
  have firm := start.foldl_read .start inside
  have held := Progress.readAll_holds inside
  obtain ⟨t, finished, n, whole⟩ := Completion.finish_repaired ending held
  have below := Completion.finish_firm firm held ending t finished
  rw [parse, parse?, finished, Option.getD_some]
  obtain ⟨label, row, rfl, -⟩ := whole
  exact ⟨.ofChildren below label .origin, below⟩

section Missing

variable {text : List Char}

/-- A missing token is a closing parenthesis of no width at the end of the last token. -/
theorem eq_missingAt {u : Tree} (hu : u ∈ nodesRow (parse text).children)
    (missing : u.isMissing = true) :
    u = missingAt .closing (endOf ((Lexer.tokens text).map ofToken)) := by
  obtain ⟨n, whole⟩ := parse_repaired text
  have symbol : u.symbol = .token .closing := by
    rcases whole.of_mem_nodes hu with rfl | ⟨formed, -⟩
    · cases missing
    · cases formed with
      | @leaf token absent inside miss =>
          rw [Tree.symbol, (miss missing).1]
          rfl
      | node p admits place parts formed => cases missing
  have held := whole.mem_held rfl hu symbol (by simp)
  rcases List.mem_append.1 held with read | supplied
  · obtain ⟨t, -, rfl⟩ := List.mem_map.1 read
    cases missing
  · exact (List.mem_replicate.1 supplied).2

/-- A list begins with an opening parenthesis of the text, and a closing parenthesis is its last
child. -/
theorem parens_of_list {u : Tree} (hu : u ∈ nodesRow (parse text).children)
    (list : u.symbol = .nonterminal .list) :
    Lexer.tokens text ≠ [] ∧ ∀ before c after, u.children = before ++ c :: after →
      c.symbol = .token .closing → after = [] := by
  obtain ⟨n, whole⟩ := parse_repaired text
  rcases whole.of_mem_nodes hu with rfl | ⟨formed, part, -⟩
  · cases list
  · cases formed with
    | @leaf token absent inside miss => exact absurd list (Completion.symbol_leaf_ne token absent)
    | @node label span row p admits place parts formed =>
        cases label with
        | error whole => cases list
        | skipped => cases list
        | production q =>
            obtain ⟨spelt, tight⟩ := admits
            obtain ⟨xs, split, within⟩ := inside_of_spells (Symbol.nonterminal.inj list) spelt
            obtain ⟨o, mid, c, rfl, opens, -, rfl⟩ := tight.ends split
            have solid := isSolid_of_counted (fun v hv => formed v (by simp [hv])) (inside_solid within)
            constructor
            · intro none
              have first : o ∈ nodesRow (parse text).children :=
                nodesRow_subset_of_mem hu
                  (mem_nodesRow.2 ⟨o, List.mem_cons_self, by rw [nodes_eq]; exact List.mem_cons_self⟩)
              have held := whole.mem_held rfl first opens (by simp)
              rw [none, List.map_nil, List.nil_append] at held
              rw [(List.mem_replicate.1 held).2] at opens
              cases opens
            · intro before d after children closing
              rcases List.eq_nil_or_concat after with rfl | ⟨after, last, rfl⟩
              · rfl
              · have inner : o :: mid = before ++ d :: after := by
                  have same : (o :: mid) ++ [c] = (before ++ d :: after) ++ [last] := by
                    simpa [Tree.children] using children
                  exact List.append_inj_left' same rfl
                have mem : d ∈ o :: mid := inner ▸ by simp
                rcases List.mem_cons.1 mem with rfl | mem
                · rw [opens] at closing
                  cases closing
                · cases solid d mem _ closing

/-- A missing node is supplied at the end of the last token, for the list that is its parent. -/
theorem list_of_missing {c : Cursor} (hc : c ∈ (parse text).preorder)
    (missing : c.tree.isMissing = true) :
    c.tree = missingAt .closing (endOf ((Lexer.tokens text).map ofToken)) ∧
      Lexer.tokens text ≠ [] ∧
      ∃ list ∈ (parse text).preorder, c.parent? = some list ∧
        list.tree.isNonterminal .list = true ∧ list.childCursors.getLast? = some c := by
  obtain ⟨n, whole⟩ := parse_repaired text
  obtain ⟨root, below⟩ := parse_firm text
  rcases exists_under hc with rfl | ⟨up, under, node, mem⟩
  · exact absurd missing (Bool.eq_false_iff.1 root.present)
  · obtain ⟨before, split, -⟩ := under.child
    have child : c.tree ∈ up.tree.children := split ▸ by simp
    have list : up.tree.symbol = .nonterminal .list := by
      by_contra other
      have firm := (root.sealed.of_mem_nodes _ node).children other c.tree child
      exact absurd missing (Bool.eq_false_iff.1 firm.present)
    have inner : up.tree ∈ nodesRow (parse text).children := by
      rw [nodes_eq] at node
      rcases List.mem_cons.1 node with same | inner
      · rw [same] at list
        rcases whole.root_symbol with file | error <;> simp [list] at *
      · exact inner
    have leaf : c.tree ∈ nodesRow (parse text).children :=
      nodesRow_subset_of_mem inner
        (mem_nodesRow.2 ⟨c.tree, child, by rw [nodes_eq]; exact List.mem_cons_self⟩)
    have same := eq_missingAt leaf missing
    have symbol : c.tree.symbol = .token .closing := by rw [same]; rfl
    obtain ⟨ne, last⟩ := parens_of_list inner list
    have visible : c.tree.isVisible = true := by rw [isVisible, symbol]; rfl
    have seen : up.tree.isVisible = true := isVisible_of_isList (decide_eq_true list)
    exact ⟨same, ne, up, mem seen, Cursor.parent?_eq under seen, by simp [isNonterminal, list],
      Cursor.getLast?_childCursors under (last _ _ _ split symbol) visible seen⟩

end Missing

/-- Every token of a text ends no later than the last one. -/
theorem Lexer.stop_le_last (text : List Char) :
    ∀ last ∈ (tokens text).getLast?, ∀ t ∈ tokens text, t.span.stop.byte ≤ last.span.stop.byte := by
  intro last final t ht
  obtain ⟨init, split⟩ := List.getLast?_eq_some_iff.1 final
  have ordered := tokens_follow text
  have placed := tokens_placed text last (split ▸ by simp)
  rw [split] at ht ordered
  rcases List.mem_append.1 ht with ht | ht
  · obtain ⟨order, -⟩ := (List.pairwise_append.1 ordered).2.2 t ht last (List.mem_singleton_self _)
    have width := placed.start_lt
    omega
  · rw [List.mem_singleton.1 ht]

/-- Only closing parentheses are ever invented.  Every missing node is an anonymous closing
parenthesis of no width, which is the last child of a list and stands at the end of the last token,
after every token of the text; so a diagnostic says that there is a syntax error, or that a closing
parenthesis is missing. -/
theorem missing_closes_list (text : List Char) :
    (∀ c ∈ (parse text).preorder, c.tree.isMissing = true →
      c.tree.kind = ")" ∧ c.tree.isNamed = false ∧
      (∃ last, (Lexer.tokens text).getLast? = some last ∧ c.tree.span = .empty last.span.stop ∧
        ∀ t ∈ Lexer.tokens text, t.span.stop.byte ≤ c.tree.span.start.byte) ∧
      ∃ list ∈ (parse text).preorder, c.parent? = some list ∧
        list.tree.isNonterminal .list = true ∧ list.childCursors.getLast? = some c) ∧
    ∀ d ∈ Diagnostic.all (parse text),
      d.fault.message = "Syntax error" ∨ d.fault.message = "Missing node: )" := by
  constructor
  · intro c hc missing
    obtain ⟨same, ne, list⟩ := list_of_missing hc missing
    have final := List.getLast?_eq_some_getLast ne
    set last := (Lexer.tokens text).getLast ne
    have stop : endOf ((Lexer.tokens text).map ofToken) = last.span.stop := by
      rw [endOf, List.getLast?_map, final]
      rfl
    rw [same, stop]
    exact ⟨rfl, rfl, ⟨last, final, rfl, Lexer.stop_le_last text last final⟩, list⟩
  · intro d hd
    obtain ⟨c, hc, told⟩ := List.mem_filterMap.1 hd
    rw [Diagnostic.of?] at told
    split at told
    · exact .inl (Option.some.inj told ▸ rfl)
    · split at told
      · next missing =>
          obtain ⟨same, -⟩ := list_of_missing hc missing
          obtain rfl := Option.some.inj told
          rw [same]
          exact .inr rfl
      · cases told

end MettaSyntax
