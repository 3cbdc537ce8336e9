import MettaSyntax.Proofs.Landmarks
import MettaSyntax.Proofs.LineBreak

/-! # Reading on after a balanced text

When a balanced text has been read without an error, no list is open, and at most one still has to be
completed.  Whatever tokens follow, and however the tree is completed in the end, the landmarks of the
text stay the same. -/

set_option autoImplicit false

namespace MettaSyntax

open MettaSyntax.Tree

/-- Outside of all lists a token is taken only at the start and after an expression. -/
theorem State.start_or_sequence_of_shift? {s next : State} {t : TokenKind}
    (shift : s.shift? t = some next) (outside : s.isInside = false) : s = .start ∨ s = .sequence := by
  cases s with
  | start => exact .inl rfl
  | sequence => exact .inr rfl
  | opened => cases outside
  | headed => cases outside
  | applied => cases outside
  | firstArgument => cases outside
  | nextArgument => cases outside
  | _ => cases t <;> cases shift

namespace Stack

variable {e : Nat} {marks row : List Tree} {s : Stack}

/-- Nothing is completed before a stretch that cannot be read. -/
theorem settle_unlexable (s : Stack) : s.settle .unlexable = s := by
  rw [Stack.settle]
  cases s.state.rank with
  | zero => rfl
  | succ n => rfl

/-- At the start and after an expression of the file no list is open. -/
theorem symbol_ne_opening (hs : s.Viable) (h : s.state = .start ∨ s.state = .sequence) :
    ∀ t ∈ s.trees, t.symbol ≠ .token .opening := by
  rcases h with start | sequence
  · exact fun t ht => symbol_ne_opening_of_isExtra (hs.extras start t ht)
  · obtain ⟨below, body, taken, start⟩ := hs.sequence sequence
    intro t ht
    rw [taken.trees] at ht
    rcases List.mem_append.1 ht with ht | ht
    · exact symbol_ne_opening_of_isExtra (taken.viable.extras start t ht)
    · by_cases extra : t.isExtra = true
      · exact symbol_ne_opening_of_isExtra extra
      · have mem : t.symbol ∈ counted body :=
          List.mem_map_of_mem (List.mem_filter.2 ⟨ht, by simpa using extra⟩)
        rw [taken.counted] at mem
        rw [List.mem_singleton.1 mem]
        simp

/-- A stack without errors that holds a balanced row of tokens, the landmarks of which are the given
ones once a list that has been closed is completed. -/
structure Rests (e : Nat) (marks row : List Tree) (s : Stack) : Prop where
  held : s.Open row
  clean : s.Clean
  balanced : nesting? 0 (row.map Tree.symbol) = some 0
  landmarks : landmarks e s.closeList.trees = marks

theorem Rests.comment {t : Token} (hs : s.Rests e marks row) (comment : t.kind = .comment)
    (later : e ≤ t.span.start.byte) :
    Rests e marks (row ++ [.ofToken t]) (⟨.ofToken t, s.state⟩ :: s) where
  held := hs.held.comment comment
  clean := hs.clean.push (.leaf (by simp [comment]))
  balanced := by
    rw [List.map_append, nesting?_append, hs.balanced]
    simp [Tree.ofToken, Tree.symbol, comment, TokenKind.toSymbol, Symbol.level?]
  landmarks := by
    have extra : (Tree.ofToken t).isExtra = true := by simp [Tree.ofToken, Tree.isExtra, comment]
    rw [closeList_extra hs.held.viable extra, landmarks_append, hs.landmarks, Tree.ofToken,
      landmarks_of_later later, List.append_nil]

/-- Where a balanced row has been read, no list is open. -/
theorem Rests.outside (hs : s.Rests e marks row) {u : Stack} (held : u.Holds row) (clean : u.Clean) :
    u.state.isInside = false := by
  obtain ⟨d, depth, allows⟩ := clean.depth held
  rw [hs.balanced, Option.some.injEq] at depth
  by_contra inside
  have deep := allows.2 (by simpa using inside)
  omega

/-- A token that can be shifted after a balanced row finds all lists completed. -/
theorem Rests.settle (hs : s.Rests e marks row) {t : TokenKind} {next : State}
    (shift : (s.settle t).state.shift? t = some next) : (s.settle t).Keeps e marks := by
  obtain ⟨comment, -, lexable⟩ := State.ne_of_shift? shift
  have held := hs.held.toHolds.settle t
  have outside := hs.outside held (hs.clean.settle hs.held.toHolds t)
  refine ⟨by rw [landmarks_settle hs.held.toHolds comment lexable, hs.landmarks], ?_⟩
  have state := State.start_or_sequence_of_shift? shift outside
  exact fun u hu opening => absurd opening (symbol_ne_opening held.viable state u hu)

/-- A token that has to be skipped after a balanced row finds all lists completed as well. -/
theorem Rests.complete (hs : s.Rests e marks row) {t : TokenKind} (ending : t ≠ .ending)
    (comment : t ≠ .comment) : (s.settle t).complete.Keeps e marks := by
  have opened := hs.held.settle ending
  have held := opened.complete.toHolds
  have outside := hs.outside held ((hs.clean.settle hs.held.toHolds t).complete opened.toHolds)
  have state : (s.settle t).complete.state = .start ∨ (s.settle t).complete.state = .sequence := by
    by_contra other
    rw [not_or] at other
    have inside := State.isInside_of_completion? opened.toHolds.completed
      opened.complete.unfinished other.1 other.2
    rw [outside] at inside
    cases inside
  refine ⟨?_, fun u hu opening => absurd opening (symbol_ne_opening held.viable state u hu)⟩
  rw [landmarks_complete opened.toHolds, ← hs.landmarks]
  by_cases lexable : t = .unlexable
  · rw [lexable, settle_unlexable]
  · have closed := State.isClosed_of_reduction?_none comment lexable (hs.held.toHolds.settled t)
    rw [closeList_of_open closed, landmarks_settle hs.held.toHolds comment lexable]

end Stack

namespace Progress

variable {e : Nat} {marks row : List Tree} {t : Token}

def Keeps (e : Nat) (marks : List Tree) (p : Progress) : Prop :=
  p.stack.Keeps e marks ∧ ∀ k ∈ p.skipping, landmarks e k.row = []

theorem landmarks_start (later : e ≤ t.span.start.byte) :
    landmarks e (Skipping.start t).row = [] := by
  have early : (ofChildren .skipped t.span.start [.ofToken t]).isEarly e = false :=
    isEarly_of_symbol (by simp [Label.symbol]) _ _
  rw [Skipping.row, Skipping.start, landmarks_ofChildren early, Tree.ofToken,
    landmarks_of_later later]
  rfl

theorem readToken_keeps {s : Stack} (hs : s.Keeps e marks) (held : s.Holds row)
    (later : e ≤ t.span.start.byte) : (readToken s t).Keeps e marks := by
  unfold readToken
  by_cases comment : t.kind = .comment
  · rw [if_pos comment]
    exact ⟨hs.token later _, by simp⟩
  · rw [if_neg comment]
    have settled := hs.settle held t.kind
    cases hn : (s.settle t.kind).state.shift? t.kind with
    | some next =>
        simp only [hn]
        exact ⟨settled.token later next, by simp⟩
    | none =>
        simp only [hn]
        refine ⟨settled.complete (held.settle t.kind), fun k hk => ?_⟩
        obtain rfl := Option.some.inj hk
        exact landmarks_start later

theorem resume_keeps {s : Stack} {k : Skipping} (hs : s.Keeps e marks)
    (quiet : landmarks e k.row = []) (later : e ≤ t.span.start.byte) :
    (resume s k t).Keeps e marks := by
  unfold resume
  by_cases comment : t.kind = .comment
  · rw [if_pos comment]
    refine ⟨hs, fun k' hk => ?_⟩
    obtain rfl := Option.some.inj hk
    have row : (k.comment t).row = k.row ++ [.ofToken t] := rfl
    rw [row, landmarks_append, quiet, Tree.ofToken, landmarks_of_later later]
    rfl
  · rw [if_neg comment]
    cases hn : s.state.shift? t.kind with
    | some next =>
        have pushed : (s.pushError k.row).Keeps e (marks ++ landmarks e k.row) := hs.pushError
        rw [quiet, List.append_nil] at pushed
        exact ⟨pushed.token later next, by simp⟩
    | none =>
        refine ⟨hs, fun k' hk => ?_⟩
        obtain rfl := Option.some.inj hk
        have early : (ofChildren .skipped t.span.start
            (k.row ++ [(Skipping.start t).run])).isEarly e = false :=
          isEarly_of_symbol (by simp [Label.symbol]) _ _
        have run : landmarks e [(Skipping.start t).run] = [] := landmarks_start later
        rw [Skipping.row, Skipping.skip, landmarks_ofChildren early, landmarks_append, quiet, run]
        rfl

/-- Reading on after a balanced row: either only comments have come, or what follows has been
reached. -/
def Stands (e : Nat) (marks row : List Tree) (p : Progress) : Prop :=
  p.skipping = none ∧ p.stack.Rests e marks row ∨ p.Keeps e marks

theorem Stands.read {p : Progress} (hp : p.Stands e marks row) (held : p.Holds row)
    (ending : t.kind ≠ .ending) (later : e ≤ t.span.start.byte) :
    (p.read t).Stands e marks (row ++ [.ofToken t]) := by
  obtain ⟨s, skipping⟩ := p
  rcases hp with ⟨rfl, rests⟩ | ⟨keeps, quiet⟩
  · show (readToken s t).Stands e marks _
    unfold readToken
    by_cases comment : t.kind = .comment
    · rw [if_pos comment]
      exact .inl ⟨rfl, rests.comment comment later⟩
    · rw [if_neg comment]
      cases hn : (s.settle t.kind).state.shift? t.kind with
      | some next =>
          simp only [hn]
          exact .inr ⟨(rests.settle hn).token later next, by simp⟩
      | none =>
          simp only [hn]
          refine .inr ⟨rests.complete ending comment, fun k hk => ?_⟩
          obtain rfl := Option.some.inj hk
          exact landmarks_start later
  · cases skipping with
    | none => exact .inr (readToken_keeps keeps held.toHolds later)
    | some k => exact .inr (resume_keeps keeps (quiet k rfl) later)

theorem Stands.foldl_read {p : Progress} {rest : List Token} (hp : p.Stands e marks row)
    (held : p.Holds row) (ending : ∀ t ∈ rest, t.kind ≠ .ending)
    (later : ∀ t ∈ rest, e ≤ t.span.start.byte) :
    (rest.foldl Progress.read p).Stands e marks (row ++ rest.map .ofToken) := by
  induction rest generalizing p row with
  | nil => simpa using hp
  | cons t rest ih =>
      have first := hp.read held (ending t List.mem_cons_self) (later t List.mem_cons_self)
      have all := ih first (read_holds held (ending t List.mem_cons_self))
        (fun u hu => ending u (List.mem_cons_of_mem _ hu))
        fun u hu => later u (List.mem_cons_of_mem _ hu)
      simpa using all

end Progress

namespace Completion

variable {e : Nat} {marks row : List Tree} {ending : Token} {s : Stack}

theorem isEarly_of_sourceFile {t : Tree} (h : t.symbol = .nonterminal .sourceFile) :
    t.isEarly e = false := by
  cases t with
  | leaf token missing => exact absurd h (symbol_leaf_ne token missing)
  | node label span children =>
      have other : label.symbol = .nonterminal .sourceFile := h
      simp [isEarly, isLandmark, other]

theorem whole?_landmarks (hs : s.Holds row) (h : ending.kind = .ending)
    (later : e ≤ ending.span.start.byte) {t : Tree} (ht : whole? s ending = some t) :
    landmarks e t.children = landmarks e (s.settle .ending).trees := by
  obtain ⟨below, file, after, -, -, split, symbol, -, rfl⟩ := whole?_eq hs h ht
  rw [split, ofChildren, Tree.children, landmarks_append, landmarks_append, landmarks_append,
    landmarks_append, landmarks_cons file, isEarly_of_sourceFile symbol, Tree.ofToken,
    landmarks_of_later later]
  simp

theorem broken_landmarks (later : e ≤ ending.span.start.byte) (row : List Tree) :
    landmarks e (broken row ending).children = landmarks e row := by
  rw [broken, ofChildren, Tree.children, landmarks_append, Tree.ofToken, landmarks_of_later later,
    List.append_nil]

theorem giveUp_keeps {up below : Stack} (keeps : Stack.Keeps e marks (up ++ below))
    {more : List Tree} (quiet : landmarks e more = []) :
    (below.pushError (up.trees ++ more)).Keeps e marks := by
  have same := keeps.landmarks
  rw [Stack.trees_append, landmarks_append] at same
  refine ⟨?_, fun t ht opening => ?_⟩
  · rw [Stack.landmarks_pushError, landmarks_append, quiet, List.append_nil, same]
  · rcases Stack.mem_trees_pushError ht with old | other
    · apply keeps.later t _ opening
      rw [Stack.trees_append]
      exact List.mem_append_left _ old
    · exact absurd opening other

section Ways

variable (h : ending.kind = .ending) (later : e ≤ ending.span.start.byte)
include h later

theorem whole?_keeps (hs : s.Holds row) (keeps : s.Keeps e marks) :
    ∀ t ∈ whole? s ending, landmarks e t.children = marks := by
  intro t ht
  rw [whole?_landmarks hs h later ht, (keeps.settle hs .ending).landmarks]

theorem givenUp?_keeps {up below : Stack} (hs : Stack.Open (up ++ below) row)
    (keeps : Stack.Keeps e marks (up ++ below)) {more : List Tree}
    (formed : ∀ t ∈ more, t.Formed ∧ t.isPart = true) (quiet : landmarks e more = [])
    (counts : ∃ t ∈ up.trees ++ more, t.isExtra = false) :
    ∀ t ∈ givenUp? (up ++ below) below more ending, landmarks e t.children = marks := by
  rw [givenUp?, Stack.above_append]
  exact whole?_keeps h later (giveUp_open hs formed counts).toHolds (giveUp_keeps keeps quiet)

theorem abandon_keeps (hs : s.Open row) (keeps : s.Keeps e marks) {k : Skipping} (hk : k.Formed)
    (quiet : landmarks e k.row = []) :
    ∀ t ∈ abandon ending s k, landmarks e t.children = marks := by
  unfold abandon
  apply keep_of
  · rintro t ⟨rfl⟩
    rw [broken_landmarks later, landmarks_append, keeps.landmarks, quiet, List.append_nil]
  · intro t ht
    obtain ⟨u, back, given⟩ := Option.bind_eq_some_iff.1 ht
    obtain ⟨up, rfl⟩ := Stack.mem_suffixes (List.mem_of_find?_eq_some back)
    have counts : ∃ t ∈ Stack.trees up ++ k.row, t.isExtra = false :=
      ⟨k.run, List.mem_append_right _ List.mem_cons_self, hk.counts⟩
    exact givenUp?_keeps h later hs keeps hk.row quiet counts t given

omit h later in
/-- Supplying a closing parenthesis adds no landmark, and no opening parenthesis. -/
theorem supply?_keeps (hs : s.Open row) (keeps : s.Keeps e marks)
    (inside : s.state.isInside = true) (done : s.state.completion? = none) {r : Stack}
    (hr : supply? s = some r) : r.Keeps e marks := by
  rw [supply?, State.insertion?_closing inside done, Option.bind_eq_bind, Option.bind_some] at hr
  obtain ⟨next, shift, rest⟩ := Option.bind_eq_some_iff.1 hr
  simp only [Option.pure_def, Option.some.injEq] at rest
  subst rest
  have shifted := hs.shift (t := ⟨.closing, .empty s.position⟩) shift (.missingAt _)
  exact (keeps.push (landmarks_missingAt _ _) (by simp [missingAt, Tree.symbol, TokenKind.toSymbol]))
    |>.complete shifted.toHolds

section Round

omit h in
theorem broken_keeps (keeps : s.Keeps e marks) :
    ∀ t ∈ some (broken s.trees ending), landmarks e t.children = marks := by
  rintro t ⟨rfl⟩
  rw [broken_landmarks later, keeps.landmarks]

variable (hs : s.Open row) (keeps : s.Keeps e marks)
include hs keeps

theorem supplied_keeps (inside : s.state.isInside = true) (done : s.state.completion? = none) :
    ∀ t ∈ (supply? s).bind (whole? · ending), landmarks e t.children = marks := by
  intro t ht
  obtain ⟨r, hr, whole⟩ := Option.bind_eq_some_iff.1 ht
  have opened := (supply?_open (n := 0) (by simpa using hs) inside done hr).1
  exact whole?_keeps h later opened.toHolds (supply?_keeps hs keeps inside done hr) t whole

theorem back_keeps {n depth : Nat} {supplied : Option Stack} {best : Option Tree} :
    ∀ t ∈ (wayBack? s supplied best depth (s.suffixes n).tail).bind (givenUp? s · [] ending),
      landmarks e t.children = marks := by
  intro t ht
  obtain ⟨u, back, given⟩ := Option.bind_eq_some_iff.1 ht
  obtain ⟨up, rfl, v, mem, counts⟩ := Stack.mem_suffixes_tail (wayBack?_mem back)
  exact givenUp?_keeps h later hs keeps (by simp) landmarks_nil
    ⟨v, List.mem_append_left _ mem, counts⟩ t given

end Round

theorem close_keeps (n : Nat) {best : Option Tree} (hs : s.Open row) (keeps : s.Keeps e marks)
    (inside : s.state.isInside = true) (done : s.state.completion? = none)
    (hb : ∀ t ∈ best, landmarks e t.children = marks) :
    ∀ t ∈ close ending n s best, landmarks e t.children = marks := by
  fun_induction close ending n s best generalizing row with
  | case1 s best => exact hb
  | case2 s best n best' => exact keep_of hb (broken_keeps later keeps)
  | case3 s best n supplied back best' go whole best'' r hr hw =>
      rename_i ih
      obtain ⟨opened, completed⟩ := supply?_open (n := 0) (by simpa using hs) inside done hr
      have closed : whole? r ending = none := by
        rw [← hw]
        simp only [whole, hr, Option.bind_some]
      apply ih opened (supply?_keeps hs keeps inside done hr)
        (isInside_of_whole?_none opened completed closed) completed
      refine keep_of (keep_of (keep_of hb (broken_keeps later keeps)) ?_) ?_
      · exact supplied_keeps h later hs keeps inside done
      · exact back_keeps h later hs keeps
  | case4 s best n supplied back best' go whole best'' =>
      refine keep_of (keep_of (keep_of hb (broken_keeps later keeps)) ?_) ?_
      · exact supplied_keeps h later hs keeps inside done
      · exact back_keeps h later hs keeps

/-- However the tree is completed, it has the landmarks that the parser has come upon. -/
theorem finish_landmarks {p : Progress} (hp : p.Stands e marks row) (held : p.Holds row) :
    ∀ t ∈ finish ending p, landmarks e t.children = marks := by
  obtain ⟨s, skipping⟩ := p
  rcases hp with ⟨rfl, rests⟩ | ⟨keeps, quiet⟩
  · have hs : s.Open row := held
    obtain ⟨t, whole, -⟩ := whole?_clean rests.clean hs h rests.balanced
    intro u hu
    rw [finish] at hu
    simp only [whole, Option.mem_some_iff] at hu
    rw [← hu, whole?_landmarks hs.toHolds h later whole,
      Stack.landmarks_settle hs.toHolds (by simp) (by simp), rests.landmarks]
  · cases skipping with
    | some k =>
        obtain ⟨hk, read, hs, -⟩ := held
        exact abandon_keeps h later hs keeps hk (quiet k rfl)
    | none =>
        have hs : s.Open row := held
        intro t ht
        rw [finish] at ht
        cases hw : whole? s ending with
        | some u =>
            simp only [hw, Option.mem_some_iff] at ht
            exact ht ▸ whole?_keeps h later hs.toHolds keeps u hw
        | none =>
            simp only [hw] at ht
            obtain ⟨settled, inside⟩ := settled_of_whole?_none hs hw
            exact close_keeps h later rounds settled.complete
              ((keeps.settle hs.toHolds .ending).complete settled.toHolds)
              (settled.complete_inside inside) settled.completed (by simp) t ht

end Ways

end Completion

/-- What follows a text without errors, and begins after it, leaves the landmarks of the text alone. -/
theorem parse_landmarks {text full : List Char} {ts : List Token} (clean : (parse text).Clean)
    (split : Lexer.tokens full = Lexer.tokens text ++ ts)
    (later : ∀ t ∈ ts, byteLength text ≤ t.span.start.byte)
    (longer : byteLength text ≤ byteLength full) :
    landmarks (byteLength text) (parse full).children =
      landmarks (byteLength text)
        (Progress.readAll (Lexer.tokens text)).stack.closeList.trees := by
  have inside := Lexer.tokens_ne_ending text
  have ending : (Lexer.endToken full).kind = .ending := rfl
  have last : byteLength text ≤ (Lexer.endToken full).span.start.byte := by
    show byteLength text ≤ (Position.origin.after full).byte
    rw [Lexer.byte_after_origin]
    exact longer
  obtain ⟨lexable, level⟩ := parse_clean_iff_tokens.1 clean
  have balanced : nesting? 0 (((Lexer.tokens text).map .ofToken).map Tree.symbol) = some 0 := by
    rwa [List.map_map]
  obtain ⟨s, reads, hs⟩ := Progress.exists_reads inside lexable level
  have held := Progress.readAll_holds inside
  have stands : (Progress.readAll (Lexer.tokens text)).Stands (byteLength text)
      (landmarks (byteLength text) (Progress.readAll (Lexer.tokens text)).stack.closeList.trees)
      ((Lexer.tokens text).map .ofToken) := by
    rw [reads]
    exact .inl ⟨rfl, hs.held, hs.clean, balanced, rfl⟩
  have endless : ∀ t ∈ ts, t.kind ≠ .ending := fun t ht =>
    Lexer.tokens_ne_ending full t (split ▸ List.mem_append_right _ ht)
  have whole : Progress.readAll (Lexer.tokens full) =
      ts.foldl Progress.read (Progress.readAll (Lexer.tokens text)) := by
    rw [split, Progress.readAll, List.foldl_append]
    rfl
  obtain ⟨t, finished, -⟩ :=
    Completion.finish_repaired ending (Progress.foldl_read_holds held endless)
  rw [parse, parse?, whole, finished]
  exact Completion.finish_landmarks ending last (stands.foldl_read held endless later)
    (Progress.foldl_read_holds held endless) t finished

/-- A line break and any text after it leave the landmarks of a text without errors alone. -/
theorem parse_extend_landmarks {text : List Char} (clean : (parse text).Clean) (more : List Char) :
    landmarks (byteLength text) (parse (text ++ '\n' :: more)).children =
      landmarks (byteLength text) (parse text).children := by
  have split := Lexer.tokens_extend (parse_clean_iff_tokens.1 clean).1 more
  have later : ∀ t ∈ Lexer.tokensFrom (Position.origin.after text) ('\n' :: more),
      byteLength text ≤ t.span.start.byte := by
    rw [← Lexer.byte_after_origin]
    exact Lexer.start_of_mem_tokensFrom
  have longer : byteLength text ≤ byteLength (text ++ '\n' :: more) := by
    rw [byteLength_append]
    exact Nat.le_add_right _ _
  rw [parse_landmarks clean split later longer,
    parse_landmarks clean (List.append_nil _).symm (by simp) (Nat.le_refl _)]

end MettaSyntax
