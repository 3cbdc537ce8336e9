import MettaSyntax.Proofs.Layout
import MettaSyntax.Proofs.LineBreak
import MettaSyntax.Proofs.Moving

/-! # Texts on lines of their own

Where a text begins a line of another one, its tokens are those that it has alone, at places that are
as many bytes and rows further on.  Only a byte order mark at its head is no longer passed over: it begins
a word. -/

set_option autoImplicit false

namespace MettaSyntax

namespace Position

/-- The place that is so many bytes and rows further on, in the same column. -/
def shifted (bytes rows : Nat) (p : Position) : Position :=
  ⟨p.byte + bytes, p.row + rows, p.column⟩

theorem next_shifted (bytes rows : Nat) (p : Position) (c : Char) :
    (p.shifted bytes rows).next c = (p.next c).shifted bytes rows := by
  unfold next shifted
  split <;> simp only [mk.injEq, and_true] <;> omega

theorem after_shifted (bytes rows : Nat) (p : Position) (cs : List Char) :
    (p.shifted bytes rows).after cs = (p.after cs).shifted bytes rows := by
  induction cs generalizing p with
  | nil => rfl
  | cons c cs ih => rw [after_cons, after_cons, next_shifted, ih]

theorem row_after_origin (cs : List Char) : (origin.after cs).row = cs.count '\n' := by
  suffices ∀ p : Position, (p.after cs).row = p.row + cs.count '\n' by simpa [origin] using this origin
  induction cs with
  | nil => exact fun p => rfl
  | cons c cs ih =>
      intro p
      rw [after_cons, ih, List.count_cons, next]
      by_cases newline : c = '\n'
      · rw [if_pos newline, if_pos (by simpa using newline), Nat.add_assoc, Nat.add_comm 1]
      · rw [if_neg newline, if_neg (by simpa using newline), Nat.add_zero]

/-- A place at the head of a line. -/
theorem eq_shifted {p : Position} (column : p.column = 0) : p = origin.shifted p.byte p.row := by
  rw [shifted, origin, Nat.zero_add, Nat.zero_add, ← column]

end Position

section Cuts

variable {start stop offset : Nat} {cs : List Char}

theorem charsBetween_shifted (bytes : Nat) :
    charsBetween (start + bytes) (stop + bytes) (offset + bytes) cs = charsBetween start stop offset cs := by
  induction cs generalizing offset with
  | nil => rfl
  | cons c cs ih =>
      have inside : (start + bytes ≤ offset + bytes ∧ offset + bytes < stop + bytes) ↔
          (start ≤ offset ∧ offset < stop) := by
        omega
      have rest : charsBetween (start + bytes) (stop + bytes) (offset + bytes + c.utf8Size) cs =
          charsBetween start stop (offset + c.utf8Size) cs := by
        rw [Nat.add_right_comm]
        exact ih
      rw [charsBetween, charsBetween, rest]
      simp only [inside]

/-- A span reads the same further on in a longer text. -/
theorem Span.cut_shifted (s : Span) (before text : List Char) (rows : Nat) :
    (s.moved (Position.shifted (byteLength before) rows)).cut (before ++ text) = s.cut text := by
  have front : charsBetween (s.start.byte + byteLength before) (s.stop.byte + byteLength before) 0 before =
      [] :=
    charsBetween_outside (.inl (by omega))
  rw [Span.cut, charsBetween_append, Span.cut]
  exact (congrArg (· ++ _) front).trans (charsBetween_shifted (byteLength before))

end Cuts

namespace Lexer

theorem tokensFrom_shifted (bytes rows : Nat) (p : Position) (cs : List Char) :
    tokensFrom (p.shifted bytes rows) cs =
      (tokensFrom p cs).map (Token.moved (Position.shifted bytes rows)) := by
  fun_induction tokensFrom p cs with
  | case1 p cs h => rw [tokensFrom_of_blank _ h, List.map_nil]
  | case2 p cs start c body h l hs stop ih =>
      have inside : l.kind ≠ .ending := by
        intro ending
        cases (Lexeme.scan?_kind hs).2 ending
      rw [tokensFrom_of_some _ (h ▸ hs) inside, Position.after_shifted, Position.after_shifted, ih]
      rfl
  | case3 p cs start c body h hs rest stop ih =>
      rw [tokensFrom_of_none _ (h ▸ hs)]
      simp only [Position.after_shifted, h]
      rw [ih]
      rfl

/-- The tokens of so many closing parentheses in a row. -/
def closings (p : Position) : Nat → List Token
  | 0 => []
  | k + 1 => ⟨.closing, ⟨p, p.next ')'⟩⟩ :: closings (p.next ')') k

theorem tokensFrom_closings (p : Position) (k : Nat) (cs : List Char) :
    tokensFrom p (List.replicate k ')' ++ cs) =
      closings p k ++ tokensFrom (p.after (List.replicate k ')')) cs := by
  induction k generalizing p with
  | zero => rfl
  | succ k ih =>
      have read : Lexeme.scan? ((')' :: (List.replicate k ')' ++ cs)).dropWhile isSpace) =
        some ⟨.closing, [')'], List.replicate k ')' ++ cs⟩ := rfl
      rw [List.replicate_succ, List.cons_append, tokensFrom_of_some p read (by simp), closings,
        List.cons_append]
      exact congrArg _ (ih (p.next ')'))

/-- The last of the parentheses ends where they all do. -/
theorem exists_last_closing (p : Position) (k : Nat) :
    ∃ t ∈ closings p (k + 1), t.span.stop = p.after (List.replicate (k + 1) ')') := by
  induction k generalizing p with
  | zero => exact ⟨_, List.mem_singleton_self _, rfl⟩
  | succ k ih =>
      obtain ⟨t, ht, stop⟩ := ih (p.next ')')
      exact ⟨t, List.mem_cons_of_mem _ ht, stop⟩

/-! ## A text at the head of a line -/

/-- One atom, or nothing. -/
def IsLead (ts : List Token) : Prop :=
  ts = [] ∨ ∃ kind span, ts = [⟨.atom kind, span⟩]

/-- Characters that end no word are at most one atom. -/
theorem tokensFrom_word (p : Position) {word rest : List Char}
    (inside : ∀ c ∈ word, isDelimiter c = false) (stop : ∀ c ∈ rest.head?, isDelimiter c = true) :
    ∃ lead, IsLead lead ∧ tokensFrom p (word ++ rest) = lead ++ tokensFrom (p.after word) rest := by
  by_cases ne : word = []
  · subst ne
    exact ⟨[], .inl rfl, rfl⟩
  · have solid : ∀ c ∈ (word ++ rest).head?, isSpace c = false := by
      intro c hc
      rw [List.head?_append_of_ne_nil _ ne] at hc
      have plain := inside c (List.mem_of_mem_head? hc)
      simp only [isDelimiter, Bool.or_eq_false_iff] at plain
      exact plain.2
    have whole : (word ++ rest).dropWhile isSpace = word ++ rest ∧
        (word ++ rest).takeWhile isSpace = [] := by
      cases shape : word ++ rest with
      | nil => exact ⟨rfl, rfl⟩
      | cons c cs =>
          have first := solid c (by rw [shape]; rfl)
          simp [first]
    have read := Lexeme.scan?_word ne inside stop
    refine ⟨[⟨.atom (Lexeme.wordKind word), ⟨p, p.after word⟩⟩], .inr ⟨_, _, rfl⟩, ?_⟩
    rw [tokensFrom_of_some p (whole.1.symm ▸ read) (by simp), whole.2]
    rfl

/-- At the head of a line a text has the tokens that it has alone, but for the word that a byte order
mark begins there. -/
theorem tokensFrom_line {p : Position} (column : p.column = 0) (text : List Char) :
    ∃ lead own rest, IsLead lead ∧ IsLead own ∧ tokens text = own ++ rest ∧
      tokensFrom p text = lead ++ rest.map (Token.moved (Position.shifted p.byte p.row)) := by
  have place := Position.eq_shifted column
  rcases mark_eq text with none | marks
  · refine ⟨[], [], tokens text, .inl rfl, .inl rfl, rfl, ?_⟩
    have whole : body text = text := by simpa [none] using mark_append_body text
    rw [tokens_eq, none, whole, List.nil_append, ← tokensFrom_shifted, Position.after_nil, ← place]
  · -- the mark and the characters after it that end no word are one
    let word := (body text).takeWhile (!isDelimiter ·)
    let more := (body text).dropWhile (!isDelimiter ·)
    have split : body text = word ++ more := List.takeWhile_append_dropWhile.symm
    have inside : ∀ c ∈ word, isDelimiter c = false := fun c hc => by
      simpa using List.mem_takeWhile_imp hc
    have stop : ∀ c ∈ more.head?, isDelimiter c = true := by
      intro c hc
      have ends := List.head?_dropWhile_not (!isDelimiter ·) (body text)
      rw [show (body text).dropWhile (!isDelimiter ·) = more from rfl, Option.mem_def.1 hc] at ends
      simpa using ends
    have marked : ∀ c ∈ byteOrderMark :: word, isDelimiter c = false := by
      intro c hc
      rcases List.mem_cons.1 hc with rfl | hc
      · rfl
      · exact inside c hc
    have whole : text = (byteOrderMark :: word) ++ more := by
      rw [List.cons_append, ← split, ← List.singleton_append, ← marks, mark_append_body]
    obtain ⟨lead, one, first⟩ := tokensFrom_word p marked stop
    obtain ⟨own, one', alone⟩ := tokensFrom_word (Position.origin.after (mark text)) inside stop
    refine ⟨lead, own, _, one, one', by rw [tokens_eq, split, alone], ?_⟩
    have later : p.after (byteOrderMark :: word) =
        ((Position.origin.after (mark text)).after word).shifted p.byte p.row := by
      rw [marks, ← Position.after_append, List.singleton_append, ← Position.after_shifted, ← place]
    rw [← tokensFrom_shifted, ← later, ← first, ← whole]

/-- The tokens of two texts with a line of closing parentheses between them. -/
theorem tokens_joined {a : List Char} (lexable : ∀ t ∈ tokens a, t.kind ≠ .unlexable) (k : Nat)
    (b : List Char) :
    let before := a ++ ['\n'] ++ List.replicate k ')' ++ ['\n']
    ∃ lead own rest, IsLead lead ∧ IsLead own ∧ tokens b = own ++ rest ∧
      tokens (before ++ b) = tokens a ++ (closings (Position.origin.after (a ++ ['\n'])) k ++
        (lead ++ rest.map (Token.moved (Position.shifted (byteLength before) (before.count '\n'))))) := by
  intro before
  have column : (Position.origin.after before).column = 0 := by
    rw [Position.after_append]
    rfl
  obtain ⟨lead, own, rest, one, one', alone, line⟩ := tokensFrom_line column b
  refine ⟨lead, own, rest, one, one', alone, ?_⟩
  have space : ∀ c ∈ ['\n'], isSpace c = true := by simp [isSpace]
  have next (p : Position) (cs : List Char) : tokensFrom p ('\n' :: cs) = tokensFrom (p.after ['\n']) cs :=
    tokensFrom_blank_append space p cs
  have split : before ++ b = a ++ '\n' :: (List.replicate k ')' ++ '\n' :: b) := by simp [before]
  rw [byte_after_origin, Position.row_after_origin] at line
  rw [split, tokens_extend lexable, next, tokensFrom_closings, next, ← line]
  simp only [before, Position.after_append]

end Lexer

/-! ## The forest of a text at the head of a line -/

namespace Lexer.IsLead

variable {lead : List Token} (h : IsLead lead)
include h

theorem nesting? (d : Nat) : nesting? d (lead.map (·.kind.toSymbol)) = some d := by
  rcases h with rfl | ⟨kind, span, rfl⟩
  · rfl
  · rfl

/-- Tokens further on, with another atom at their head, can be read as before and lead to the same
depth. -/
theorem moved {own rest : List Token} (h' : IsLead own) (f : Position → Position) {d : Nat}
    (lexable : ∀ t ∈ own ++ rest, t.kind ≠ .unlexable)
    (level : MettaSyntax.nesting? 0 ((own ++ rest).map (·.kind.toSymbol)) = some d) :
    (∀ t ∈ lead ++ rest.map (Token.moved f), t.kind ≠ .unlexable) ∧
      MettaSyntax.nesting? 0 ((lead ++ rest.map (Token.moved f)).map (·.kind.toSymbol)) = some d := by
  have kinds : (rest.map (Token.moved f)).map (·.kind.toSymbol) = rest.map (·.kind.toSymbol) := by
    rw [List.map_map]
    rfl
  constructor
  · intro t ht
    rcases List.mem_append.1 ht with first | later
    · rcases h with rfl | ⟨kind, span, rfl⟩
      · cases first
      · rw [List.mem_singleton.1 first]
        simp
    · obtain ⟨u, hu, rfl⟩ := List.mem_map.1 later
      exact lexable u (List.mem_append_right _ hu)
  · rw [List.map_append, nesting?_append, h'.nesting?] at level
    rw [List.map_append, kinds, nesting?_append, h.nesting?]
    exact level

theorem exists_items : ∃ row, Item.tokensRow row = lead ∧ Item.listsRow row = [] := by
  rcases h with rfl | ⟨kind, span, rfl⟩
  · exact ⟨[], rfl, rfl⟩
  · exact ⟨[.atom kind span], rfl, rfl⟩

/-- Without the atom at its head a forest has the same lists. -/
theorem exists_rest {row : List Item} {rest : List Token} (tokens : Item.tokensRow row = lead ++ rest) :
    ∃ row', Item.tokensRow row' = rest ∧ Item.listsRow row' = Item.listsRow row := by
  rcases h with rfl | ⟨kind, span, rfl⟩
  · exact ⟨row, tokens, rfl⟩
  · cases row with
    | nil => cases tokens
    | cons i row =>
        rw [Item.tokensRow_cons] at tokens
        cases i with
        | atom kind' span' =>
            rw [Item.tokens] at tokens
            exact ⟨row, (List.cons.inj tokens).2, by simp [Item.listsRow, Item.lists]⟩
        | comment span' =>
            rw [Item.tokens] at tokens
            cases (List.cons.inj tokens).1
        | list opening items closing =>
            rw [Item.tokens] at tokens
            cases (List.cons.inj tokens).1

end Lexer.IsLead

end MettaSyntax
