import MettaSyntax.Proofs.LineBreak

/-! # Before a closing parenthesis

A closing parenthesis that is a token ends the token before it, whatever that is.  So the tokens of the
text before it are those that the whole text has there. -/

set_option autoImplicit false

namespace MettaSyntax

namespace Lexeme

/-- A run of characters that would go on after a closing parenthesis, and ends before it, is the same in
the text before it. -/
theorem takeWhile_cut {p : Char → Bool} (goes : p ')' = true) {cs ys more : List Char}
    (parts : cs = (cs ++ ')' :: more).takeWhile p ++ ys) :
    (cs ++ ')' :: more).takeWhile p = cs.takeWhile p ∧ cs.dropWhile p = ys := by
  rw [List.takeWhile_append] at parts ⊢
  split at parts
  · rw [List.takeWhile_cons_of_pos goes] at parts
    have total := congrArg List.length parts
    simp only [List.length_append, List.length_cons] at total
    omega
  · next short =>
      have whole : cs = cs.takeWhile p ++ cs.dropWhile p := List.takeWhile_append_dropWhile.symm
      exact ⟨if_neg short, List.append_cancel_left (whole.symm.trans parts)⟩

/-- A closing parenthesis ends a word. -/
theorem word?_cut {cs ys more : List Char} {kind : TokenKind} {word : List Char}
    (h : word? (cs ++ ')' :: more) = some ⟨kind, word, ys ++ ')' :: more⟩) :
    word? cs = some ⟨kind, word, ys⟩ := by
  have ends : (!isDelimiter ')') = false := by decide
  unfold word? at h ⊢
  rw [takeWhile_append_cons ends, dropWhile_append_cons ends] at h
  split at h
  · cases h
  · next d tail taken =>
      simp only [Option.some.injEq, Lexeme.mk.injEq] at h
      obtain ⟨rfl, rfl, left⟩ := h
      rw [List.append_cancel_right left]

/-- A token that ends before a closing parenthesis is read in the same way in the text before it. -/
theorem scan?_cut {c : Char} {cs ys more : List Char} {l : Lexeme}
    (h : scan? (c :: cs ++ ')' :: more) = some l) (rest : l.rest = ys ++ ')' :: more) :
    scan? (c :: cs) = some { l with rest := ys } := by
  have whole := scan?_append h
  rw [rest, ← List.append_assoc] at whole
  have split : c :: cs = l.text ++ ys := List.append_cancel_right whole
  obtain ⟨kind, word, after⟩ := l
  subst rest
  rw [List.cons_append] at h
  unfold scan? at h
  split at h
  · next same => cases same
  · next tail same =>
      obtain ⟨rfl, -⟩ := List.cons.inj same
      simp only [Option.some.injEq, Lexeme.mk.injEq] at h
      obtain ⟨rfl, rfl, -⟩ := h
      obtain rfl : cs = ys := (List.cons.inj split).2
      rfl
  · next tail same =>
      obtain ⟨rfl, -⟩ := List.cons.inj same
      simp only [Option.some.injEq, Lexeme.mk.injEq] at h
      obtain ⟨rfl, rfl, -⟩ := h
      obtain rfl : cs = ys := (List.cons.inj split).2
      rfl
  · next tail same =>
      obtain ⟨rfl, rfl⟩ := List.cons.inj same
      simp only [Option.some.injEq, Lexeme.mk.injEq] at h
      obtain ⟨rfl, rfl, -⟩ := h
      obtain ⟨taken, left⟩ := takeWhile_cut (by decide) (List.cons.inj split).2
      rw [taken, scan?, left]
  · next tail same =>
      obtain ⟨rfl, rfl⟩ := List.cons.inj same
      obtain ⟨⟨body, after⟩, read, same⟩ := Option.map_eq_some_iff.1 h
      simp only [Lexeme.mk.injEq] at same
      obtain ⟨rfl, rfl, rfl⟩ := same
      obtain rfl : cs = body ++ ys := (List.cons.inj split).2
      rw [scan?, stringBody?_swap read]
      rfl
  · next none opening closing comment string =>
      have other {d : Char} (h : ∀ tail, c :: (cs ++ ')' :: more) = d :: tail → False) :
          ∀ tail, c :: cs = d :: tail → False :=
        fun _ same => h (cs ++ ')' :: more) (by rw [(List.cons.inj same).1])
      rw [← List.cons_append] at h
      rw [← word?_cut h, scan?]
      · exact List.cons_ne_nil _ _
      · exact other opening
      · exact other closing
      · exact other comment
      · exact other string

end Lexeme

/-- Of two prefixes of a text the one with fewer bytes is a prefix of the other. -/
theorem exists_of_byteLength_le {xs ys cs ds : List Char} (same : xs ++ ys = cs ++ ds)
    (short : byteLength xs ≤ byteLength cs) : ∃ between, cs = xs ++ between ∧ ys = between ++ ds := by
  rcases List.append_eq_append_iff.1 same with ⟨between, longer, rest⟩ | ⟨between, shorter, rest⟩
  · exact ⟨between, longer, rest⟩
  · have none : between = [] := by
      by_contra some
      have width := byteLength_pos some
      rw [shorter, byteLength_append] at short
      omega
    subst none
    exact ⟨[], by simpa using shorter.symm, by simpa using rest.symm⟩

namespace Lexer

/-- Where a later token begins at a closing parenthesis, the first one ends no later than there. -/
theorem exists_rest_of_starts {p : Position} {cs more : List Char} {l : Lexeme}
    (read : Lexeme.scan? (cs ++ ')' :: more) = some l)
    (starts : ∃ t ∈ tokensFrom (p.after l.text) l.rest, t.span.start.byte = (p.after cs).byte) :
    ∃ ys, cs = l.text ++ ys ∧ l.rest = ys ++ ')' :: more := by
  obtain ⟨t, mem, begins⟩ := starts
  have below := start_of_mem_tokensFrom t mem
  rw [begins] at below
  simp only [Position.byte_after] at below
  exact exists_of_byteLength_le (Lexeme.scan?_append read).symm (by omega)

/-- Space at the head of a text that has more than that is the same in a longer text. -/
theorem space_append {cs body : List Char} {c : Char} (shape : cs.dropWhile isSpace = c :: body)
    (more : List Char) :
    (cs ++ more).dropWhile isSpace = c :: body ++ more ∧
      (cs ++ more).takeWhile isSpace = cs.takeWhile isSpace := by
  constructor
  · rw [List.dropWhile_append, shape]
    rfl
  · have total := congrArg List.length (List.takeWhile_append_dropWhile (l := cs) (p := isSpace))
    rw [shape, List.length_append, List.length_cons] at total
    rw [List.takeWhile_append, if_neg (by omega)]

/-- Where a closing parenthesis is a token, the tokens before it are those of the text before it. -/
theorem tokensFrom_cut {p : Position} {cs more : List Char}
    (lexable : ∀ t ∈ tokensFrom p (cs ++ ')' :: more), t.kind ≠ .unlexable)
    (starts : ∃ t ∈ tokensFrom p (cs ++ ')' :: more), t.span.start.byte = (p.after cs).byte) :
    tokensFrom p (cs ++ ')' :: more) = tokensFrom p cs ++
      ⟨.closing, ⟨p.after cs, (p.after cs).next ')'⟩⟩ :: tokensFrom ((p.after cs).next ')') more := by
  generalize size : cs.length = n
  induction n using Nat.strong_induction_on generalizing p cs with
  | _ n ih =>
      cases shape : cs.dropWhile isSpace with
      | nil =>
          have space : ∀ c ∈ cs, isSpace c = true := List.dropWhile_eq_nil_iff.1 shape
          rw [tokensFrom_blank_append space, tokensFrom_of_blank p shape, List.nil_append]
          exact tokensFrom_of_some (l := ⟨.closing, [')'], more⟩) (p.after cs) rfl (by simp)
      | cons c body =>
          have cut : cs = cs.takeWhile isSpace ++ c :: body := by
            rw [← shape, List.takeWhile_append_dropWhile]
          obtain ⟨back, front⟩ := space_append shape (')' :: more)
          cases read : Lexeme.scan? (c :: body ++ ')' :: more) with
          | none =>
              rw [tokensFrom_of_none p (back ▸ read)] at lexable
              exact absurd rfl (lexable _ List.mem_cons_self)
          | some l =>
              have inside : l.kind ≠ .ending := by
                intro ending
                cases (Lexeme.scan?_kind read).2 ending
              rw [tokensFrom_of_some p (back ▸ read) inside, front] at lexable starts ⊢
              have place : p.after cs = (p.after (cs.takeWhile isSpace)).after (c :: body) := by
                rw [← Position.after_append, ← cut]
              -- the first token begins before the parenthesis, so it is not the one that begins there
              obtain ⟨t, mem, begins⟩ := starts
              rw [place] at begins
              have later : t ∈ tokensFrom ((p.after (cs.takeWhile isSpace)).after l.text) l.rest := by
                refine (List.mem_cons.1 mem).resolve_left ?_
                rintro rfl
                have width := byteLength_pos (List.cons_ne_nil c body)
                simp only [Position.byte_after] at begins
                omega
              obtain ⟨ys, split, rest⟩ := exists_rest_of_starts read ⟨t, later, begins⟩
              have first : Lexeme.scan? (cs.dropWhile isSpace) = some { l with rest := ys } := by
                rw [shape]
                exact Lexeme.scan?_cut read rest
              have ends : p.after cs = ((p.after (cs.takeWhile isSpace)).after l.text).after ys := by
                rw [place, split, Position.after_append]
              have shorter : ys.length < n := by
                have total := congrArg List.length cut
                have word := List.length_pos_iff.2 (Lexeme.scan?_text_ne_nil (shape ▸ first))
                rw [split, List.length_append, List.length_append] at total
                have pos : 0 < l.text.length := word
                omega
              rw [rest] at lexable later ⊢
              rw [← place, ends] at begins
              have tail := ih ys.length shorter (fun u hu => lexable u (List.mem_cons_of_mem _ hu))
                ⟨t, later, begins⟩ rfl
              rw [tail, ← ends, tokensFrom_of_some p first inside]
              rfl

/-- Where a closing parenthesis is a token of a text, the tokens before it are those of the text before
it. -/
theorem tokens_cut {text more : List Char}
    (lexable : ∀ t ∈ tokens (text ++ ')' :: more), t.kind ≠ .unlexable)
    (starts : ∃ t ∈ tokens (text ++ ')' :: more), t.span.start.byte = byteLength text) :
    ∃ place rest, place.start = Position.origin.after text ∧
      tokens (text ++ ')' :: more) = tokens text ++ ⟨.closing, place⟩ :: rest := by
  have marks : mark (text ++ ')' :: more) = mark text ∧
      body (text ++ ')' :: more) = body text ++ ')' :: more := by
    cases text with
    | nil => exact ⟨rfl, rfl⟩
    | cons c rest => by_cases h : c = byteOrderMark <;> simp [mark, body, h]
  have ends : (Position.origin.after (mark text)).after (body text) = Position.origin.after text := by
    rw [← Position.after_append, mark_append_body]
  rw [tokens_eq, marks.1, marks.2] at lexable starts ⊢
  rw [← byte_after_origin, ← ends] at starts
  exact ⟨⟨Position.origin.after text, (Position.origin.after text).next ')'⟩,
    tokensFrom ((Position.origin.after text).next ')') more, rfl,
    by rw [tokensFrom_cut lexable starts, tokens_eq, ends]⟩

end Lexer

end MettaSyntax
