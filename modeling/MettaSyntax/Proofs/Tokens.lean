import Mathlib.Data.List.TakeWhile
import MettaSyntax.Text.Slice
import MettaSyntax.Token.Lexer

/-! # The tokens of a text cover it

`Tiles p cs ts` says that a text `cs` that begins at `p` is the texts of the tokens `ts` with nothing
but blank space between them.  The lexer tiles every text.  `Lexer.lexemes?` is one scan after
another until the end of the text, and fails where a scan does; the tokens of a text then have the
kinds of its lexemes. -/

set_option autoImplicit false

namespace MettaSyntax

namespace Position

@[simp] theorem byte_next (p : Position) (c : Char) : (p.next c).byte = p.byte + c.utf8Size := by
  unfold next
  split
  · next h =>
      subst h
      rfl
  · rfl

theorem byte_after (p : Position) (cs : List Char) :
    (p.after cs).byte = p.byte + byteLength cs := by
  induction cs generalizing p with
  | nil => rfl
  | cons c cs ih => rw [after_cons, ih, byte_next, byteLength, Nat.add_assoc]

end Position

/-- A run of characters of a sort goes as far as it can. -/
theorem run_iff (p : Char → Bool) (cs run rest : List Char) :
    cs.takeWhile p = run ∧ cs.dropWhile p = rest ↔
      cs = run ++ rest ∧ (∀ c ∈ run, p c = true) ∧ ∀ c ∈ rest.head?, p c = false := by
  constructor
  · rintro ⟨rfl, rfl⟩
    refine ⟨List.takeWhile_append_dropWhile.symm, fun c hc => List.mem_takeWhile_imp hc, fun c hc => ?_⟩
    have stop := List.head?_dropWhile_not p cs
    rw [Option.mem_def.1 hc] at stop
    exact stop
  · rintro ⟨rfl, inside, stop⟩
    rw [List.takeWhile_append_of_pos inside, List.dropWhile_append_of_pos inside]
    cases rest with
    | nil => simp
    | cons c rest => simp [stop c rfl]

namespace Lexeme

theorem scan?_kind {cs : List Char} {l : Lexeme} (h : scan? cs = some l) :
    l.kind ≠ .unlexable ∧ (l.kind = .ending → cs = []) := by
  unfold scan? at h
  split at h
  · simp only [Option.some.injEq] at h
    simp [← h]
  · simp only [Option.some.injEq] at h
    simp [← h]
  · simp only [Option.some.injEq] at h
    simp [← h]
  · simp only [Option.some.injEq] at h
    simp [← h]
  · obtain ⟨body, -, rfl⟩ := Option.map_eq_some_iff.1 h
    simp
  · unfold word? at h
    split at h
    · cases h
    · simp only [Option.some.injEq] at h
      simp [← h]

end Lexeme

namespace Lexer

theorem byte_after_origin (cs : List Char) : (Position.origin.after cs).byte = byteLength cs := by
  rw [Position.byte_after]
  exact Nat.zero_add _

theorem afterUnlexable_suffix (cs : List Char) : afterUnlexable cs <:+ cs := by
  fun_induction afterUnlexable cs with
  | case1 rest next hs => exact List.suffix_cons _ _
  | case2 rest next hs ih =>
      exact (ih.trans (List.dropWhile_suffix _)).trans (List.suffix_cons _ _)
  | case3 cs _ => exact List.nil_suffix

/-- A text that begins at a position is the texts of its tokens with blank space between them. -/
inductive Tiles : Position → List Char → List Token → Prop
  | nil {p : Position} {blank : List Char} (h : ∀ c ∈ blank, isSpace c = true) : Tiles p blank []
  | cons {p : Position} {blank body rest : List Char} {kind : TokenKind} {ts : List Token}
      (h : ∀ c ∈ blank, isSpace c = true) (ne : body ≠ []) (inside : kind ≠ .ending)
      (tail : Tiles ((p.after blank).after body) rest ts) :
      Tiles p (blank ++ body ++ rest) (⟨kind, ⟨p.after blank, (p.after blank).after body⟩⟩ :: ts)

theorem takeWhile_isSpace (cs : List Char) : ∀ c ∈ cs.takeWhile isSpace, isSpace c = true :=
  fun _ hc => List.mem_takeWhile_imp hc

theorem tokensFrom_tiles (p : Position) (cs : List Char) : Tiles p cs (tokensFrom p cs) := by
  fun_induction tokensFrom p cs with
  | case1 p cs h =>
      refine .nil fun c hc => ?_
      rw [← List.takeWhile_append_dropWhile (p := isSpace) (l := cs), h, List.append_nil] at hc
      exact takeWhile_isSpace cs c hc
  | case2 p cs start c body h l hs stop ih =>
      have inside : l.kind ≠ .ending := by
        intro ending
        cases (Lexeme.scan?_kind hs).2 ending
      have split : cs = cs.takeWhile isSpace ++ l.text ++ l.rest := by
        rw [List.append_assoc, ← Lexeme.scan?_append hs, ← h, List.takeWhile_append_dropWhile]
      have tiles := Tiles.cons (takeWhile_isSpace cs) (Lexeme.scan?_text_ne_nil hs) inside ih
      rw [← split] at tiles
      exact tiles
  | case3 p cs start c body h hs rest stop ih =>
      obtain ⟨skipped, hr⟩ : ∃ skipped, skipped ++ rest = c :: body :=
        afterUnlexable_suffix (c :: body)
      have shorter : rest.length < (c :: body).length :=
        afterUnlexable_length (c :: body) (List.cons_ne_nil _ _)
      have total : (c :: body).length = skipped.length + rest.length := by
        rw [← hr, List.length_append]
      have taken : (c :: body).take ((c :: body).length - rest.length) = skipped := by
        rw [total, Nat.add_sub_cancel, ← hr, List.take_left]
      have ne : skipped ≠ [] := by
        rintro rfl
        rw [List.length_nil] at total
        omega
      have split : cs = cs.takeWhile isSpace ++ skipped ++ rest := by
        rw [List.append_assoc, hr, ← h, List.takeWhile_append_dropWhile]
      simp only [stop, taken] at ih ⊢
      have inside : TokenKind.unlexable ≠ .ending := by simp
      have tiles := Tiles.cons (takeWhile_isSpace cs) ne inside ih
      rw [← split] at tiles
      exact tiles

theorem Tiles.ne_ending {p : Position} {cs : List Char} {ts : List Token} (h : Tiles p cs ts) :
    ∀ t ∈ ts, t.kind ≠ .ending := by
  induction h with
  | nil => simp
  | cons _ _ inside _ ih =>
      intro t ht
      rcases List.mem_cons.1 ht with rfl | ht
      · exact inside
      · exact ih t ht

def body : List Char → List Char
  | c :: rest => if c = byteOrderMark then rest else c :: rest
  | [] => []

/-- The byte order mark at the head of a text, if there is one. -/
def mark : List Char → List Char
  | c :: _ => if c = byteOrderMark then [c] else []
  | [] => []

theorem mark_append_body (text : List Char) : mark text ++ body text = text := by
  cases text with
  | nil => rfl
  | cons c rest =>
      by_cases h : c = byteOrderMark <;> simp [mark, body, h]

theorem mark_eq (text : List Char) : mark text = [] ∨ mark text = [byteOrderMark] := by
  cases text with
  | nil => exact .inl rfl
  | cons c rest =>
      by_cases h : c = byteOrderMark
      · exact .inr (by simp [mark, h])
      · exact .inl (by simp [mark, h])

theorem tokens_eq (text : List Char) :
    tokens text = tokensFrom (Position.origin.after (mark text)) (body text) := by
  cases text with
  | nil =>
      rw [tokens, body, tokensFrom]
      rfl
  | cons c rest =>
      by_cases h : c = byteOrderMark
      · simp [tokens, mark, body, h]
      · simp [tokens, mark, body, h]

theorem tokens_tiles (text : List Char) :
    Tiles (Position.origin.after (mark text)) (body text) (tokens text) := by
  rw [tokens_eq]
  exact tokensFrom_tiles _ _

theorem tokens_ne_ending (text : List Char) : ∀ t ∈ tokens text, t.kind ≠ .ending :=
  (tokens_tiles text).ne_ending

/-! ## One scan after another -/

theorem scan?_ne_nil {cs : List Char} {l : Lexeme} (h : Lexeme.scan? cs = some l)
    (inside : l.kind ≠ .ending) : cs ≠ [] := by
  rintro rfl
  cases h
  exact inside rfl

/-- Scans one token after another, passing over blank space, until the one that ends the text, which
is left out. -/
def lexemes? (cs : List Char) : Option (List Lexeme) :=
  match _h : Lexeme.scan? (cs.dropWhile isSpace) with
  | some l => if _hk : l.kind = .ending then some [] else (lexemes? l.rest).map (l :: ·)
  | none => none
  termination_by cs.length
  decreasing_by
    obtain ⟨c, body, split⟩ := List.exists_cons_of_ne_nil (scan?_ne_nil _h _hk)
    have h₁ := (List.dropWhile_suffix isSpace (l := cs)).length_le
    rw [split] at _h h₁
    have h₂ := Lexeme.scan?_rest_length _h
    omega

theorem tokensFrom_of_blank {cs : List Char} (p : Position) (h : cs.dropWhile isSpace = []) :
    tokensFrom p cs = [] := by
  rw [tokensFrom]
  split
  · rfl
  · next split =>
      rw [h] at split
      cases split

theorem tokensFrom_of_some {cs : List Char} {l : Lexeme} (p : Position)
    (h : Lexeme.scan? (cs.dropWhile isSpace) = some l) (inside : l.kind ≠ .ending) :
    tokensFrom p cs =
      ⟨l.kind, ⟨p.after (cs.takeWhile isSpace), (p.after (cs.takeWhile isSpace)).after l.text⟩⟩ ::
        tokensFrom ((p.after (cs.takeWhile isSpace)).after l.text) l.rest := by
  rw [tokensFrom]
  split
  · next blank => exact absurd blank (scan?_ne_nil h inside)
  · next c body split =>
      rw [split] at h
      split
      · next l' hl =>
          rw [h, Option.some.injEq] at hl
          subst hl
          rfl
      · next hl =>
          rw [h] at hl
          cases hl

theorem tokensFrom_of_none {cs : List Char} (p : Position)
    (h : Lexeme.scan? (cs.dropWhile isSpace) = none) :
    tokensFrom p cs =
      let start := p.after (cs.takeWhile isSpace)
      let body := cs.dropWhile isSpace
      let stop := start.after (body.take (body.length - (afterUnlexable body).length))
      ⟨.unlexable, ⟨start, stop⟩⟩ :: tokensFrom stop (afterUnlexable body) := by
  rw [tokensFrom]
  split
  · next blank =>
      rw [blank] at h
      cases h
  · next c body split =>
      rw [split] at h
      split
      · next l hl =>
          rw [h] at hl
          cases hl
      · rw [split]

/-- Where every scan succeeds, the tokens of the text are the lexemes. -/
theorem kinds_of_lexemes? {cs : List Char} {ls : List Lexeme} (p : Position)
    (h : lexemes? cs = some ls) :
    (tokensFrom p cs).map Token.kind = ls.map Lexeme.kind ∧ .unlexable ∉ ls.map Lexeme.kind := by
  fun_induction lexemes? cs generalizing p ls with
  | case1 cs l hl ending =>
      rw [tokensFrom_of_blank p ((Lexeme.scan?_kind hl).2 ending)]
      cases h
      simp
  | case2 cs l hl inside ih =>
      obtain ⟨more, hm, rfl⟩ := Option.map_eq_some_iff.1 h
      obtain ⟨same, lexable⟩ := ih ((p.after (cs.takeWhile isSpace)).after l.text) hm
      rw [tokensFrom_of_some p hl inside, List.map_cons, List.map_cons, same]
      refine ⟨rfl, ?_⟩
      intro mem
      rcases List.mem_cons.1 mem with here | mem
      · exact (Lexeme.scan?_kind hl).1 here.symm
      · exact lexable mem
  | case3 cs hl => cases h

theorem unlexable_of_lexemes? {cs : List Char} (p : Position) (h : lexemes? cs = none) :
    .unlexable ∈ (tokensFrom p cs).map Token.kind := by
  fun_induction lexemes? cs generalizing p with
  | case1 cs l hl ending => cases h
  | case2 cs l hl inside ih =>
      rw [tokensFrom_of_some p hl inside, List.map_cons]
      exact List.mem_cons_of_mem _ (ih _ (Option.map_eq_none_iff.1 h))
  | case3 cs hl =>
      rw [tokensFrom_of_none p hl]
      exact List.mem_cons_self

end Lexer

end MettaSyntax
