import MettaSyntax.Proofs.Numerals
import MettaSyntax.Proofs.Strings
import MettaSyntax.Proofs.Tokens

/-! # The token language

`Lexeme.Reads` is the language of tokens: how a text may begin with a token, one rule for each sort.  A
string ends at the first quote that does not follow an odd number of backslashes, a comment before the next
line break, and a word before the next delimiter.  A scan reads exactly what the rules allow, and it fails
only at a NUL character and at a string without an end. -/

set_option autoImplicit false

namespace MettaSyntax

namespace Lexeme

/-- The characters that may stand between tokens. -/
def spaces : List Char :=
  [' ', '\t', '\n', '\r', '\x0b', '\x0c']

/-- The characters that stand in no word. -/
def delimiters : List Char :=
  ['\x00', '(', ')', '"', ';'] ++ spaces

theorem isSpace_iff (c : Char) : isSpace c = true ↔ c ∈ spaces := by
  simp [isSpace, spaces, or_assoc]

theorem isDelimiter_iff (c : Char) : isDelimiter c = true ↔ c ∈ delimiters := by
  simp [isDelimiter, delimiters, isSpace_iff, or_assoc]

/-! ## Tokens -/

/-- The kinds of words. -/
inductive IsKind (word : List Char) : AtomKind → Prop
  | number (numeral : word ∈ Numeral.pattern.matches') : IsKind word .number
  | variable (other : word ∉ Numeral.pattern.matches') (sigil : word.head? = some '$')
      (named : 2 ≤ word.length) : IsKind word .variable
  | symbol (other : word ∉ Numeral.pattern.matches')
      (plain : ¬ (word.head? = some '$' ∧ 2 ≤ word.length)) : IsKind word .symbol

/-- The token language: a text begins with a token, and the text after it is the rest. -/
inductive Reads : List Char → Lexeme → Prop
  | ending : Reads [] ⟨.ending, [], []⟩
  | opening (rest : List Char) : Reads ('(' :: rest) ⟨.opening, ['('], rest⟩
  | closing (rest : List Char) : Reads (')' :: rest) ⟨.closing, [')'], rest⟩
  | comment {line rest : List Char} (inside : '\n' ∉ line)
      (stop : rest = [] ∨ rest.head? = some '\n') :
      Reads (';' :: line ++ rest) ⟨.comment, ';' :: line, rest⟩
  | string {inside : List Char} (rest : List Char) (isInside : IsInside inside) :
      Reads ('"' :: inside ++ '"' :: rest) ⟨.atom .string, '"' :: inside ++ ['"'], rest⟩
  | word {word rest : List Char} {kind : AtomKind} (ne : word ≠ [])
      (inside : ∀ c ∈ word, c ∉ delimiters) (stop : ∀ c ∈ rest.head?, c ∈ delimiters)
      (isKind : IsKind word kind) : Reads (word ++ rest) ⟨.atom kind, word, rest⟩

theorem isKind_iff {word : List Char} {kind : AtomKind} : IsKind word kind ↔ wordKind word = kind := by
  have numeral := isNumeral_iff word
  have named : (decide (word.head? = some '$') && decide (1 < word.length)) = true ↔
      word.head? = some '$' ∧ 2 ≤ word.length := by simp [Nat.succ_le_iff]
  unfold wordKind
  constructor
  · rintro (matched | ⟨other, sigil, long⟩ | ⟨other, plain⟩)
    · rw [if_pos (numeral.2 matched)]
    · rw [if_neg (mt numeral.1 other), if_pos (named.2 ⟨sigil, long⟩)]
    · rw [if_neg (mt numeral.1 other), if_neg (mt named.1 plain)]
  · rintro rfl
    split
    · next matched => exact .number (numeral.1 matched)
    · next other =>
        split
        · next long => exact .variable (mt numeral.2 other) (named.1 long).1 (named.1 long).2
        · next plain => exact .symbol (mt numeral.2 other) (mt named.2 plain)

theorem word?_eq_some_iff {cs : List Char} {l : Lexeme} :
    word? cs = some l ↔ ∃ word rest kind, cs = word ++ rest ∧ l = ⟨.atom kind, word, rest⟩ ∧ word ≠ [] ∧
      (∀ c ∈ word, c ∉ delimiters) ∧ (∀ c ∈ rest.head?, c ∈ delimiters) ∧ IsKind word kind := by
  have run := run_iff (!isDelimiter ·) cs
  simp only [Bool.not_eq_true', Bool.eq_false_iff, ne_eq, isDelimiter_iff, not_not] at run
  unfold word?
  constructor
  · intro read
    split at read
    · cases read
    · next c word taken =>
        obtain rfl := Option.some.inj read
        obtain ⟨split, inside, stop⟩ := (run (c :: word) _).1 ⟨taken, rfl⟩
        exact ⟨_, _, _, split, rfl, List.cons_ne_nil _ _, inside, stop, isKind_iff.2 rfl⟩
  · rintro ⟨word, rest, kind, split, rfl, ne, inside, stop, isKind⟩
    obtain ⟨taken, dropped⟩ := (run word rest).2 ⟨split, inside, stop⟩
    obtain ⟨c, word, rfl⟩ := List.exists_cons_of_ne_nil ne
    obtain rfl := isKind_iff.1 isKind
    rw [taken, dropped]

theorem comment_iff (cs line rest : List Char) :
    cs.takeWhile (· ≠ '\n') = line ∧ cs.dropWhile (· ≠ '\n') = rest ↔
      cs = line ++ rest ∧ '\n' ∉ line ∧ (rest = [] ∨ rest.head? = some '\n') := by
  rw [run_iff]
  refine and_congr_right fun _ => and_congr ?_ ?_
  · constructor
    · intro inside mem
      simpa using inside '\n' mem
    · intro inside c hc
      simp only [ne_eq, decide_not, Bool.not_eq_true', decide_eq_false_iff_not]
      rintro rfl
      exact inside hc
  · cases rest with
    | nil => simp
    | cons c rest => simp

/-- A scan reads exactly what the language allows. -/
theorem scan?_eq_some_iff {cs : List Char} {l : Lexeme} : scan? cs = some l ↔ Reads cs l := by
  constructor
  · intro read
    unfold scan? at read
    split at read
    · obtain rfl := Option.some.inj read
      exact .ending
    · next rest =>
        obtain rfl := Option.some.inj read
        exact .opening rest
    · next rest =>
        obtain rfl := Option.some.inj read
        exact .closing rest
    · next text =>
        obtain rfl := Option.some.inj read
        obtain ⟨split, inside, stop⟩ := (comment_iff text _ _).1 ⟨rfl, rfl⟩
        have reads := Reads.comment inside stop
        rwa [List.cons_append, ← split] at reads
    · next text =>
        obtain ⟨⟨body, after⟩, string, rfl⟩ := Option.map_eq_some_iff.1 read
        obtain ⟨inside, rfl, rfl, isInside⟩ := stringBody?_eq_some_iff.1 string
        exact .string after isInside
    · obtain ⟨word, rest, kind, rfl, rfl, ne, inside, stop, isKind⟩ := word?_eq_some_iff.1 read
      exact .word ne inside stop isKind
  · intro reads
    cases reads with
    | ending => rfl
    | opening rest => rfl
    | closing rest => rfl
    | @comment line rest inside stop =>
        obtain ⟨taken, dropped⟩ := (comment_iff _ _ _).2 ⟨rfl, inside, stop⟩
        rw [List.cons_append, scan?, taken, dropped]
    | @string inside rest isInside =>
        have string : stringBody? (inside ++ '"' :: rest) = some (inside ++ ['"'], rest) :=
          stringBody?_eq_some_iff.2 ⟨inside, rfl, rfl, isInside⟩
        rw [List.cons_append, scan?, string]
        rfl
    | @word word rest kind ne inside stop isKind =>
        have read : word? (word ++ rest) = some ⟨.atom kind, word, rest⟩ :=
          word?_eq_some_iff.2 ⟨word, rest, kind, rfl, rfl, ne, inside, stop, isKind⟩
        obtain ⟨c, word, rfl⟩ := List.exists_cons_of_ne_nil ne
        have first : c ∉ delimiters := inside c List.mem_cons_self
        simp only [delimiters, List.mem_append, List.mem_cons, not_or] at first
        rw [List.cons_append, scan?]
        · exact read
        all_goals simp_all

theorem word?_eq_none_iff (c : Char) (cs : List Char) : word? (c :: cs) = none ↔ c ∈ delimiters := by
  rw [← isDelimiter_iff]
  unfold word?
  cases delimiter : isDelimiter c with
  | true => simp [delimiter]
  | false => simp [delimiter]

/-- A scan fails only at a NUL character and at a string without an end. -/
theorem scan?_eq_none_iff {cs : List Char} (solid : ∀ c ∈ cs.head?, c ∉ spaces) :
    scan? cs = none ↔ cs.head? = some '\x00' ∨ ∃ text, cs = '"' :: text ∧ Unclosed text := by
  unfold scan?
  split
  · simp
  · simp
  · simp
  · simp
  · rw [Option.map_eq_none_iff, stringBody?_eq_none_iff]
    simp
  · next none opening closing comment string =>
      obtain ⟨c, text, rfl⟩ := List.exists_cons_of_ne_nil none
      have notSpace : c ∉ spaces := solid c rfl
      have notOpening : c ≠ '(' := fun same => opening text (by rw [same])
      have notClosing : c ≠ ')' := fun same => closing text (by rw [same])
      have notComment : c ≠ ';' := fun same => comment text (by rw [same])
      have notString : c ≠ '"' := fun same => string text (by rw [same])
      rw [word?_eq_none_iff, delimiters, List.mem_append, or_iff_left notSpace]
      simp [notOpening, notClosing, notComment, notString]

theorem Reads.kind_eq_ending_iff {cs : List Char} {l : Lexeme} (h : Reads cs l) :
    l.kind = .ending ↔ cs = [] := by
  cases h with
  | word ne => simp [ne]
  | _ => simp

end Lexeme

namespace Lexer

/-- From any place of a text on, a scan passes over the longest run of spaces, and then it reads what the
token language allows, which is the end of the text if nothing is left, and otherwise is not empty; it
fails only at a NUL character and at a string without an end.  What is read is the next token of the
text, and the lexer goes on after it. -/
theorem token_language (before cs : List Char) :
    ∃ blank rest, cs = blank ++ rest ∧ (∀ c ∈ blank, c ∈ Lexeme.spaces) ∧
      (∀ c ∈ rest.head?, c ∉ Lexeme.spaces) ∧
      (∀ l, Lexeme.scan? (cs.dropWhile isSpace) = some l ↔ Lexeme.Reads rest l) ∧
      (Lexeme.scan? (cs.dropWhile isSpace) = none ↔
        rest.head? = some '\x00' ∨ ∃ text, rest = '"' :: text ∧ Lexeme.Unclosed text) ∧
      ∀ l, Lexeme.Reads rest l → (l.kind = .ending ↔ rest = []) ∧
        (l.kind = .ending → tokensFrom (Position.origin.after before) cs = []) ∧
        (l.kind ≠ .ending → l.text ≠ [] ∧
          let start := Position.origin.after (before ++ blank)
          let stop := Position.origin.after (before ++ blank ++ l.text)
          tokensFrom (Position.origin.after before) cs =
            ⟨l.kind, ⟨start, stop⟩⟩ :: tokensFrom stop l.rest) := by
  obtain ⟨split, space, stop⟩ := (run_iff isSpace cs _ _).1 ⟨rfl, rfl⟩
  have solid : ∀ c ∈ (cs.dropWhile isSpace).head?, c ∉ Lexeme.spaces := by
    intro c hc
    rw [← Lexeme.isSpace_iff, stop c hc]
    exact Bool.false_ne_true
  refine ⟨cs.takeWhile isSpace, cs.dropWhile isSpace, split,
    fun c hc => (Lexeme.isSpace_iff c).1 (space c hc), solid, fun l => Lexeme.scan?_eq_some_iff,
    Lexeme.scan?_eq_none_iff solid, fun l reads => ?_⟩
  have read := Lexeme.scan?_eq_some_iff.2 reads
  refine ⟨reads.kind_eq_ending_iff, fun ending => ?_, fun inside => ⟨?_, ?_⟩⟩
  · exact tokensFrom_of_blank _ (reads.kind_eq_ending_iff.1 ending)
  · obtain ⟨c, text, here⟩ := List.exists_cons_of_ne_nil (mt reads.kind_eq_ending_iff.2 inside)
    rw [here] at read
    exact Lexeme.scan?_text_ne_nil read
  · intro start stop
    have starts : start = (Position.origin.after before).after (cs.takeWhile isSpace) :=
      Position.after_append _ _ _
    have stops : stop = start.after l.text := Position.after_append _ _ _
    rw [tokensFrom_of_some _ read inside, stops, starts]

example : Lexeme.wordKind "-.5".toList = .symbol ∧ Lexeme.wordKind "$".toList = .symbol := by decide

example : Lexeme.scan? "\"a\\\"".toList = none := by decide

end Lexer

end MettaSyntax
