import Mathlib.Data.List.Pairwise
import MettaSyntax.Proofs.Tokens

/-! # Where tokens stand

A token of a text is a stretch of it, between the positions that its prefixes lead to, and one that
can be read is what a scan reads there.  Each token begins where going on from the end of an earlier
one leads.  Going on never leads to an earlier row, and as long as it stays on a row the column counts
the bytes. -/

set_option autoImplicit false

namespace MettaSyntax

namespace Position

theorem before_iff (p q : Position) :
    p.before q = true ↔ p.row < q.row ∨ p.row = q.row ∧ p.column < q.column := by
  simp [before]

theorem before_asymm {p q : Position} (h : p.before q = true) : q.before p = false := by
  rw [before_iff] at h
  rw [Bool.eq_false_iff, ne_eq, before_iff]
  omega

theorem before_trans {p q r : Position} (h : p.before q = true) (h' : q.before r = true) :
    p.before r = true := by
  rw [before_iff] at *
  omega

theorem row_le_next (p : Position) (c : Char) : p.row ≤ (p.next c).row := by
  unfold next
  split
  · exact Nat.le_succ _
  · exact Nat.le_refl _

theorem row_le_after (p : Position) (cs : List Char) : p.row ≤ (p.after cs).row := by
  induction cs generalizing p with
  | nil => exact Nat.le_refl _
  | cons c cs ih =>
      have first := p.row_le_next c
      have rest := ih (p.next c)
      rw [after_cons]
      omega

theorem column_next {p : Position} {c : Char} (h : (p.next c).row = p.row) :
    (p.next c).column = p.column + c.utf8Size := by
  unfold next at h ⊢
  split at h
  · simp at h
  · next other => rw [if_neg other]

/-- On one row the column counts the bytes. -/
theorem column_after {p : Position} {cs : List Char} (h : (p.after cs).row = p.row) :
    (p.after cs).column = p.column + byteLength cs := by
  induction cs generalizing p with
  | nil => rfl
  | cons c cs ih =>
      rw [after_cons] at h ⊢
      have first := p.row_le_next c
      have rest := (p.next c).row_le_after cs
      have same : (p.next c).row = p.row := by omega
      have later : ((p.next c).after cs).row = (p.next c).row := by omega
      rw [ih later, column_next same, byteLength, Nat.add_assoc]

/-- Going on never leads back. -/
theorem not_after_before (p : Position) (cs : List Char) : (p.after cs).before p = false := by
  have row := p.row_le_after cs
  rw [Bool.eq_false_iff, ne_eq, before_iff]
  rintro (above | ⟨same, left⟩)
  · omega
  · rw [column_after same] at left
    omega

theorem row_after {p : Position} {cs : List Char} (h : '\n' ∉ cs) : (p.after cs).row = p.row := by
  induction cs generalizing p with
  | nil => rfl
  | cons c cs ih =>
      rw [List.mem_cons, not_or] at h
      have first : (p.next c).row = p.row := by
        unfold next
        rw [if_neg (Ne.symm h.1)]
      rw [after_cons, ih h.2, first]

end Position

theorem byteLength_pos {cs : List Char} (h : cs ≠ []) : 0 < byteLength cs := by
  cases cs with
  | nil => exact absurd rfl h
  | cons c cs =>
      have := Char.utf8Size_pos c
      rw [byteLength]
      omega

namespace Lexeme

/-- Only a string may hold a line break. -/
theorem newline_not_mem {cs : List Char} {l : Lexeme} (h : scan? cs = some l)
    (hl : l.kind ≠ .atom .string) : '\n' ∉ l.text := by
  unfold scan? at h
  split at h
  · simp only [Option.some.injEq] at h
    simp [← h]
  · simp only [Option.some.injEq] at h
    simp [← h]
  · simp only [Option.some.injEq] at h
    simp [← h]
  · next rest =>
      simp only [Option.some.injEq] at h
      rw [← h, List.mem_cons, not_or]
      refine ⟨by decide, fun mem => ?_⟩
      have plain := List.mem_takeWhile_imp mem
      simp at plain
  · obtain ⟨body, -, rfl⟩ := Option.map_eq_some_iff.1 h
    exact absurd rfl hl
  · unfold word? at h
    split at h
    · cases h
    · next c word split =>
        simp only [Option.some.injEq] at h
        rw [← h, ← split]
        intro mem
        have plain := List.mem_takeWhile_imp mem
        simp [isDelimiter, isSpace] at plain

end Lexeme

namespace Lexer

/-- A token is a stretch of the text, and one that can be read is what a scan reads there. -/
def Placed (text : List Char) (t : Token) : Prop :=
  ∃ before body after, text = before ++ body ++ after ∧ body ≠ [] ∧
    t.span = ⟨Position.origin.after before, Position.origin.after (before ++ body)⟩ ∧
    (t.kind = .unlexable ∨ Lexeme.scan? (body ++ after) = some ⟨t.kind, body, after⟩)

theorem tokensFrom_placed {text before cs : List Char} {p : Position}
    (place : p = Position.origin.after before) (split : text = before ++ cs) :
    ∀ t ∈ tokensFrom p cs, Placed text t := by
  fun_induction tokensFrom p cs generalizing before with
  | case1 p cs h => simp
  | case2 p cs start c body h l hs stop =>
      rename_i ih
      have cut : cs = cs.takeWhile isSpace ++ (l.text ++ l.rest) := by
        rw [← Lexeme.scan?_append hs, ← h, List.takeWhile_append_dropWhile]
      have begins : start = Position.origin.after (before ++ cs.takeWhile isSpace) := by
        rw [Position.after_append, ← place]
      have ends : stop = Position.origin.after (before ++ cs.takeWhile isSpace ++ l.text) := by
        rw [Position.after_append, ← begins]
      have whole : text = before ++ cs.takeWhile isSpace ++ l.text ++ l.rest := by
        rw [split, List.append_assoc, List.append_assoc, ← cut]
      intro t ht
      rcases List.mem_cons.1 ht with rfl | ht
      · refine ⟨_, l.text, l.rest, whole, Lexeme.scan?_text_ne_nil hs, by rw [← begins, ← ends], ?_⟩
        rw [← Lexeme.scan?_append hs]
        exact .inr hs
      · exact ih ends whole t ht
  | case3 p cs start c body h hs rest stop =>
      rename_i ih
      obtain ⟨skipped, hr⟩ : ∃ skipped, skipped ++ rest = c :: body :=
        afterUnlexable_suffix (c :: body)
      have shorter : rest.length < (c :: body).length :=
        afterUnlexable_length (c :: body) (List.cons_ne_nil _ _)
      have total : (c :: body).length = skipped.length + rest.length := by
        rw [← hr, List.length_append]
      have taken : (c :: body).take ((c :: body).length - rest.length) = skipped := by
        rw [total, Nat.add_sub_cancel, ← hr, List.take_left]
      have ne : skipped ≠ [] := by
        rintro rfl
        rw [List.length_nil] at total
        omega
      have cut : cs = cs.takeWhile isSpace ++ (skipped ++ rest) := by
        rw [hr, ← h, List.takeWhile_append_dropWhile]
      have begins : start = Position.origin.after (before ++ cs.takeWhile isSpace) := by
        rw [Position.after_append, ← place]
      have ends : stop = Position.origin.after (before ++ cs.takeWhile isSpace ++ skipped) := by
        rw [Position.after_append, ← begins]
        simp only [stop, taken]
      have whole : text = before ++ cs.takeWhile isSpace ++ skipped ++ rest := by
        rw [split, List.append_assoc, List.append_assoc, ← cut]
      intro t ht
      rcases List.mem_cons.1 ht with rfl | ht
      · exact ⟨_, skipped, rest, whole, ne, by rw [← begins, ← ends], .inl rfl⟩
      · exact ih ends whole t ht

theorem tokens_placed (text : List Char) : ∀ t ∈ tokens text, Placed text t := by
  rw [tokens_eq]
  exact tokensFrom_placed rfl (mark_append_body text).symm

/-- No token is empty. -/
theorem Placed.start_lt {text : List Char} {t : Token} (h : Placed text t) :
    t.span.start.byte < t.span.stop.byte := by
  obtain ⟨before, body, after, -, ne, span, -⟩ := h
  have pos := byteLength_pos ne
  rw [span, Position.after_append, Position.byte_after (Position.origin.after before)]
  exact Nat.lt_add_of_pos_right pos

theorem Placed.row_le {text : List Char} {t : Token} (h : Placed text t) :
    t.span.start.row ≤ t.span.stop.row := by
  obtain ⟨before, body, after, -, -, span, -⟩ := h
  rw [span, Position.after_append]
  exact Position.row_le_after _ _

/-- A token that stands on one row is as long as its columns tell. -/
theorem Placed.column {text : List Char} {t : Token} (h : Placed text t)
    (row : t.span.start.row = t.span.stop.row) :
    0 < t.span.bytes ∧ t.span.stop.column = t.span.start.column + t.span.bytes := by
  obtain ⟨before, body, after, -, ne, span, -⟩ := h
  rw [span, Position.after_append] at row ⊢
  have width : Span.bytes ⟨Position.origin.after before,
      (Position.origin.after before).after body⟩ = byteLength body := by
    rw [Span.bytes, Position.byte_after (Position.origin.after before), Nat.add_sub_cancel_left]
  rw [width]
  exact ⟨byteLength_pos ne, Position.column_after row.symm⟩

/-- A token that runs over the end of a row is a string, or cannot be read. -/
theorem Placed.row {text : List Char} {t : Token} (h : Placed text t)
    (string : t.kind ≠ .atom .string) (lexable : t.kind ≠ .unlexable) :
    t.span.start.row = t.span.stop.row := by
  obtain ⟨before, body, after, -, -, span, scanned⟩ := h
  have line : '\n' ∉ body := Lexeme.newline_not_mem (scanned.resolve_left lexable) string
  rw [span, Position.after_append, Position.row_after line]

/-! ## The order of tokens -/

/-- Each token begins where going on from the end of an earlier one leads. -/
theorem Tiles.ascend {p : Position} {cs : List Char} {ts : List Token} (h : Tiles p cs ts) :
    (∀ t ∈ ts, ∃ gap, t.span.start = p.after gap) ∧
      ts.Pairwise fun t u => ∃ gap, u.span.start = t.span.stop.after gap := by
  induction h with
  | nil => exact ⟨by simp, List.Pairwise.nil⟩
  | @cons p blank body rest kind ts space ne inside tail ih =>
      obtain ⟨starts, ordered⟩ := ih
      refine ⟨?_, List.pairwise_cons.2 ⟨starts, ordered⟩⟩
      intro t ht
      rcases List.mem_cons.1 ht with rfl | ht
      · exact ⟨blank, rfl⟩
      · obtain ⟨gap, start⟩ := starts t ht
        exact ⟨blank ++ body ++ gap, by rw [start, Position.after_append, Position.after_append]⟩

/-- Each token ends at or before the place where a later one begins. -/
theorem tokens_follow (text : List Char) :
    (tokens text).Pairwise fun t u =>
      t.span.stop.byte ≤ u.span.start.byte ∧ t.span.stop.row ≤ u.span.start.row := by
  refine (tokens_tiles text).ascend.2.imp ?_
  intro t u ⟨gap, start⟩
  rw [start, Position.byte_after]
  exact ⟨Nat.le_add_right _ _, Position.row_le_after _ _⟩

/-- The order of the places at which tokens begin is that of their byte offsets. -/
theorem byte_le_of_before {text : List Char} {t u : Token} (ht : t ∈ tokens text)
    (hu : u ∈ tokens text) (before : t.span.start.before u.span.start = true) :
    t.span.start.byte ≤ u.span.start.byte := by
  let Agree (t u : Token) : Prop :=
    (t.span.start.before u.span.start = true → t.span.start.byte ≤ u.span.start.byte) ∧
      (u.span.start.before t.span.start = true → u.span.start.byte ≤ t.span.start.byte)
  have symmetric : Std.Symm Agree := ⟨fun t u h => ⟨h.2, h.1⟩⟩
  have agree : (tokens text).Pairwise Agree := by
    refine (tokens_tiles text).ascend.2.imp_of_mem fun {t u} ht _ follows => ?_
    obtain ⟨gap, start⟩ := follows
    obtain ⟨front, body, rest, -, -, span, -⟩ := tokens_placed text t ht
    have later : u.span.start = t.span.start.after (body ++ gap) := by
      rw [start, span, Position.after_append, Position.after_append]
    dsimp only [Agree]
    rw [later]
    refine ⟨fun _ => ?_, fun back => ?_⟩
    · rw [Position.byte_after]
      exact Nat.le_add_right _ _
    · rw [Position.not_after_before] at back
      cases back
  exact (agree.forall_of_forall (fun t _ => ⟨fun _ => Nat.le_refl _, fun _ => Nat.le_refl _⟩) ht hu).1
    before

end Lexer

end MettaSyntax
