import MettaSyntax.Token.Basic
import MettaSyntax.Token.Number

/-! # Reading tokens

`scan?` reads the one token at the head of a text that does not begin with blank space, or fails
where a NUL character stands outside a string or where a string is never closed.  `Lexer.tokens`
cuts a whole text into its tokens: blank space between tokens is dropped, and a stretch that
cannot be scanned becomes one `unlexable` token, which runs over the blank space inside it and
stops where scanning succeeds again. -/

set_option autoImplicit false

namespace MettaSyntax

/-- The six characters that separate tokens and belong to none. -/
def isSpace (c : Char) : Bool :=
  c = ' ' || c = '\t' || c = '\n' || c = '\r' || c = '\x0b' || c = '\x0c'

/-- The characters that end a word. -/
def isDelimiter (c : Char) : Bool :=
  c = '\x00' || c = '(' || c = ')' || c = '"' || c = ';' || isSpace c

/-- A token at the head of a text, and the text after it. -/
structure Lexeme where
  kind : TokenKind
  text : List Char
  rest : List Char
  deriving DecidableEq

namespace Lexeme

/-- The kind of a word: a numeral, else a variable if a name follows the sigil, else a symbol. -/
def wordKind (word : List Char) : AtomKind :=
  if isNumeral word then .number
  else if word.head? = some '$' && 1 < word.length then .variable
  else .symbol

/-- The body of a string after its opening quote, up to and with the closing quote, and what
follows it.  A backslash takes the next character along. -/
def stringBody? : List Char → Option (List Char × List Char)
  | [] => none
  | '"' :: rest => some (['"'], rest)
  | '\\' :: [] => none
  | '\\' :: c :: rest => (stringBody? rest).map fun (body, after) => ('\\' :: c :: body, after)
  | c :: rest => (stringBody? rest).map fun (body, after) => (c :: body, after)

/-- The word at the head of a text, if it has at least one character. -/
def word? (cs : List Char) : Option Lexeme :=
  match cs.takeWhile (!isDelimiter ·) with
  | [] => none
  | c :: word => some ⟨.atom (wordKind (c :: word)), c :: word, cs.dropWhile (!isDelimiter ·)⟩

/-- The token at the head of a text that does not begin with blank space. -/
def scan? : List Char → Option Lexeme
  | [] => some ⟨.ending, [], []⟩
  | '(' :: rest => some ⟨.opening, ['('], rest⟩
  | ')' :: rest => some ⟨.closing, [')'], rest⟩
  | ';' :: rest => some ⟨.comment, ';' :: rest.takeWhile (· ≠ '\n'), rest.dropWhile (· ≠ '\n')⟩
  | '"' :: rest =>
      (stringBody? rest).map fun (body, after) => ⟨.atom .string, '"' :: body, after⟩
  | cs => word? cs

theorem stringBody?_append {cs body after : List Char} (h : stringBody? cs = some (body, after)) :
    cs = body ++ after := by
  fun_induction stringBody? cs generalizing body after with
  | case1 => simp at h
  | case2 rest =>
      simp only [Option.some.injEq, Prod.mk.injEq] at h
      simp [← h.1, ← h.2]
  | case3 => simp at h
  | case4 c rest ih =>
      obtain ⟨⟨b, a⟩, hb, he⟩ := Option.map_eq_some_iff.1 h
      simp only [Prod.mk.injEq] at he
      simp [← he.1, ← he.2, ih hb]
  | case5 c rest _ _ _ ih =>
      obtain ⟨⟨b, a⟩, hb, he⟩ := Option.map_eq_some_iff.1 h
      simp only [Prod.mk.injEq] at he
      simp [← he.1, ← he.2, ih hb]

theorem word?_append {cs : List Char} {l : Lexeme} (h : word? cs = some l) :
    cs = l.text ++ l.rest ∧ l.text ≠ [] := by
  unfold word? at h
  split at h
  · simp at h
  · rename_i c word hw
    simp only [Option.some.injEq] at h
    subst h
    exact ⟨by rw [← hw, List.takeWhile_append_dropWhile], List.cons_ne_nil _ _⟩

theorem scan?_append {cs : List Char} {l : Lexeme} (h : scan? cs = some l) :
    cs = l.text ++ l.rest := by
  unfold scan? at h
  split at h
  · simp at h; simp [← h]
  · simp at h; simp [← h]
  · simp at h; simp [← h]
  · simp only [Option.some.injEq] at h
    simp [← h, List.takeWhile_append_dropWhile]
  · obtain ⟨⟨b, a⟩, hb, he⟩ := Option.map_eq_some_iff.1 h
    simp [← he, stringBody?_append hb]
  · exact (word?_append h).1

theorem scan?_text_ne_nil {c : Char} {cs : List Char} {l : Lexeme} (h : scan? (c :: cs) = some l) :
    l.text ≠ [] := by
  unfold scan? at h
  split at h
  · simp_all
  · simp at h; simp [← h]
  · simp at h; simp [← h]
  · simp at h; simp [← h]
  · obtain ⟨⟨b, a⟩, _, he⟩ := Option.map_eq_some_iff.1 h
    simp [← he]
  · exact (word?_append h).2

theorem scan?_rest_length {c : Char} {cs : List Char} {l : Lexeme} (h : scan? (c :: cs) = some l) :
    l.rest.length < (c :: cs).length := by
  have h₁ := scan?_append h
  have h₂ := List.length_pos_iff.2 (scan?_text_ne_nil h)
  rw [h₁, List.length_append]
  omega

end Lexeme

namespace Lexer

/-- The text after the stretch that begins at the head of `cs`, where scanning fails.  A NUL is
passed over one at a time, with the blank space before the next place where scanning fails; an
open string has no end, so the stretch then takes everything. -/
def afterUnlexable : List Char → List Char
  | '\x00' :: rest =>
      let next := rest.dropWhile isSpace
      if (Lexeme.scan? next).isSome then rest else afterUnlexable next
  | _ => []
  termination_by cs => cs.length
  decreasing_by
    simp only [List.length_cons]
    exact Nat.lt_succ_of_le (List.dropWhile_suffix _).length_le

theorem afterUnlexable_length (cs : List Char) (h : cs ≠ []) :
    (afterUnlexable cs).length < cs.length := by
  fun_induction afterUnlexable cs with
  | case1 rest next hs => simp
  | case2 rest next hs ih =>
      have hn : next ≠ [] := by
        intro hn
        simp [hn, Lexeme.scan?] at hs
      have h₁ : next.length ≤ rest.length := (List.dropWhile_suffix _).length_le
      have h₂ := ih hn
      simp only [List.length_cons]
      omega
  | case3 cs _ => exact List.length_pos_iff.2 h

/-- The tokens of a text that begins at the position `p`, without the one for its end. -/
def tokensFrom (p : Position) (cs : List Char) : List Token :=
  let start := p.after (cs.takeWhile isSpace)
  match _h : cs.dropWhile isSpace with
  | [] => []
  | c :: body =>
      match _hs : Lexeme.scan? (c :: body) with
      | some l =>
          let stop := start.after l.text
          ⟨l.kind, ⟨start, stop⟩⟩ :: tokensFrom stop l.rest
      | none =>
          let rest := afterUnlexable (c :: body)
          let stop := start.after ((c :: body).take ((c :: body).length - rest.length))
          ⟨.unlexable, ⟨start, stop⟩⟩ :: tokensFrom stop rest
  termination_by cs.length
  decreasing_by
    · have h₁ := (List.dropWhile_suffix isSpace (l := cs)).length_le
      have h₂ := Lexeme.scan?_rest_length _hs
      rw [_h] at h₁
      omega
    · have h₁ := (List.dropWhile_suffix isSpace (l := cs)).length_le
      have h₂ := afterUnlexable_length (c :: body) (List.cons_ne_nil _ _)
      rw [_h] at h₁
      omega

/-- A byte order mark at the head of a text is passed over like blank space. -/
def byteOrderMark : Char := '\ufeff'

/-- The tokens of a whole text, without the one for its end. -/
def tokens : List Char → List Token
  | c :: rest =>
      if c = byteOrderMark then tokensFrom (Position.origin.next c) rest
      else tokensFrom .origin (c :: rest)
  | [] => []

/-- The place where a text ends. -/
def textEnd (cs : List Char) : Position :=
  Position.origin.after cs

/-- The token that stands for the end of a text. -/
def endToken (cs : List Char) : Token :=
  ⟨.ending, .empty (textEnd cs)⟩

end Lexer

end MettaSyntax
