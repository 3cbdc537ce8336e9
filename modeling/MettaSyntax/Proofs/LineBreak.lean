import MettaSyntax.Proofs.Placement
import MettaSyntax.Proofs.Strings

/-! # A line break ends every token

What can be read in a text is read in the same way when a line break and any other text follow it: its
tokens come first, and the others begin after it. -/

set_option autoImplicit false

namespace MettaSyntax

theorem takeWhile_append_cons {p : Char → Bool} {stop : Char} (h : p stop = false)
    (cs more : List Char) : (cs ++ stop :: more).takeWhile p = cs.takeWhile p := by
  induction cs with
  | nil => simp [h]
  | cons c cs ih =>
      rw [List.cons_append, List.takeWhile_cons, List.takeWhile_cons, ih]

theorem dropWhile_append_cons {p : Char → Bool} {stop : Char} (h : p stop = false)
    (cs more : List Char) :
    (cs ++ stop :: more).dropWhile p = cs.dropWhile p ++ stop :: more := by
  induction cs with
  | nil => simp [h]
  | cons c cs ih =>
      rw [List.cons_append, List.dropWhile_cons, List.dropWhile_cons, ih]
      split <;> rfl

namespace Lexeme

theorem word?_extend {cs : List Char} {l : Lexeme} (h : word? cs = some l) (more : List Char) :
    word? (cs ++ '\n' :: more) = some { l with rest := l.rest ++ '\n' :: more } := by
  have ends : (!isDelimiter '\n') = false := by decide
  unfold word? at h ⊢
  rw [takeWhile_append_cons ends, dropWhile_append_cons ends]
  split at h
  · cases h
  · next c word split =>
      simp only [Option.some.injEq] at h
      rw [← h]

/-- A token is read in the same way when a line break follows the text. -/
theorem scan?_extend {cs : List Char} {l : Lexeme} (h : scan? cs = some l)
    (inside : l.kind ≠ .ending) (more : List Char) :
    scan? (cs ++ '\n' :: more) = some { l with rest := l.rest ++ '\n' :: more } := by
  unfold scan? at h
  split at h
  · obtain rfl := Option.some.inj h
    exact absurd rfl inside
  · obtain rfl := Option.some.inj h
    rfl
  · obtain rfl := Option.some.inj h
    rfl
  · next rest =>
      have ends : decide ('\n' ≠ '\n') = false := by decide
      obtain rfl := Option.some.inj h
      rw [List.cons_append, scan?, takeWhile_append_cons ends, dropWhile_append_cons ends]
  · next rest =>
      obtain ⟨⟨body, after⟩, read, rfl⟩ := Option.map_eq_some_iff.1 h
      rw [List.cons_append, scan?, stringBody?_extend read]
      rfl
  · next none opening closing comment string =>
      obtain ⟨c, rest, rfl⟩ := List.exists_cons_of_ne_nil none
      -- what comes after the first character does not matter for the choice of the branch
      have other {d : Char} (h : ∀ tail, c :: rest = d :: tail → False) :
          ∀ tail, c :: (rest ++ '\n' :: more) = d :: tail → False :=
        fun _ same => h rest (by rw [(List.cons.inj same).1])
      rw [← word?_extend h more, List.cons_append, scan?]
      · exact List.cons_ne_nil _ _
      · exact other opening
      · exact other closing
      · exact other comment
      · exact other string

end Lexeme

namespace Lexer

theorem tokensFrom_blank_append {blank : List Char} (space : ∀ c ∈ blank, isSpace c = true)
    (p : Position) (cs : List Char) :
    tokensFrom p (blank ++ cs) = tokensFrom (p.after blank) cs := by
  have front : (blank ++ cs).takeWhile isSpace = blank ++ cs.takeWhile isSpace :=
    List.takeWhile_append_of_pos space
  have back : (blank ++ cs).dropWhile isSpace = cs.dropWhile isSpace :=
    List.dropWhile_append_of_pos space
  have start : p.after ((blank ++ cs).takeWhile isSpace) =
      (p.after blank).after (cs.takeWhile isSpace) := by
    rw [front, Position.after_append]
  cases read : Lexeme.scan? (cs.dropWhile isSpace) with
  | none =>
      rw [tokensFrom_of_none p (back ▸ read), tokensFrom_of_none _ read, back, start]
  | some l =>
      by_cases inside : l.kind = .ending
      · have none : cs.dropWhile isSpace = [] := (Lexeme.scan?_kind read).2 inside
        rw [tokensFrom_of_blank p (back ▸ none), tokensFrom_of_blank _ none]
      · rw [tokensFrom_of_some p (back ▸ read) inside, tokensFrom_of_some _ read inside, start]

/-- The tokens of a text that can be read come first when a line break and more text follow. -/
theorem tokensFrom_extend {p : Position} {cs : List Char}
    (lexable : ∀ t ∈ tokensFrom p cs, t.kind ≠ .unlexable) (more : List Char) :
    tokensFrom p (cs ++ '\n' :: more) =
      tokensFrom p cs ++ tokensFrom (p.after cs) ('\n' :: more) := by
  fun_induction tokensFrom p cs with
  | case1 p cs blank =>
      exact tokensFrom_blank_append (List.dropWhile_eq_nil_iff.1 blank) p _
  | case2 p cs start c body h l hs stop =>
      rename_i ih
      have cut : cs = cs.takeWhile isSpace ++ (l.text ++ l.rest) := by
        rw [← Lexeme.scan?_append hs, ← h, List.takeWhile_append_dropWhile]
      have inside : l.kind ≠ .ending := by
        intro ending
        cases (Lexeme.scan?_kind hs).2 ending
      have whole : (c :: body) ++ '\n' :: more = (cs ++ '\n' :: more).dropWhile isSpace := by
        rw [List.dropWhile_append, h]
        rfl
      have front : (cs ++ '\n' :: more).takeWhile isSpace = cs.takeWhile isSpace := by
        have total : (cs.takeWhile isSpace ++ c :: body).length = cs.length := by
          rw [← h, List.takeWhile_append_dropWhile]
        rw [List.length_append, List.length_cons] at total
        rw [List.takeWhile_append, if_neg (by omega)]
      have first := Lexeme.scan?_extend hs inside more
      rw [whole] at first
      have rest := ih fun t ht => lexable t (List.mem_cons_of_mem _ ht)
      have ends : p.after cs = stop.after l.rest := by
        rw [cut, Position.after_append, Position.after_append]
      rw [tokensFrom_of_some p first inside, front, rest, ends]
      rfl
  | case3 p cs start c body h hs rest stop ih =>
      exact absurd rfl (lexable _ List.mem_cons_self)

/-- The tokens of a text that can be read come first when a line break and more text follow, and the
others are those of what follows. -/
theorem tokens_extend {text : List Char} (lexable : ∀ t ∈ tokens text, t.kind ≠ .unlexable)
    (more : List Char) :
    tokens (text ++ '\n' :: more) =
      tokens text ++ tokensFrom (Position.origin.after text) ('\n' :: more) := by
  have marks : mark (text ++ '\n' :: more) = mark text ∧
      body (text ++ '\n' :: more) = body text ++ '\n' :: more := by
    cases text with
    | nil => exact ⟨rfl, rfl⟩
    | cons c rest => by_cases h : c = byteOrderMark <;> simp [mark, body, h]
  rw [tokens_eq] at lexable
  rw [tokens_eq, tokens_eq, marks.1, marks.2, tokensFrom_extend lexable, ← Position.after_append,
    mark_append_body]

theorem start_of_mem_tokensFrom {p : Position} {cs : List Char} :
    ∀ t ∈ tokensFrom p cs, p.byte ≤ t.span.start.byte := by
  intro t ht
  obtain ⟨gap, begins⟩ := (tokensFrom_tiles _ _).ascend.1 t ht
  rw [begins, Position.byte_after]
  exact Nat.le_add_right _ _

end Lexer

end MettaSyntax
