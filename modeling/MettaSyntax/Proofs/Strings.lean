import Mathlib.Algebra.Ring.Parity
import Mathlib.Data.List.DropRight
import MettaSyntax.Token.Lexer

/-! # Strings

A string ends at the first quote that does not follow an odd number of backslashes.  So what comes after
that quote does not matter for what is read, and no string is read where there is no such quote. -/

set_option autoImplicit false

namespace MettaSyntax

namespace Lexeme

/-- The number of backslashes that a text ends with. -/
def backslashes (cs : List Char) : Nat :=
  (cs.rtakeWhile (· = '\\')).length

/-- No quote in a text ends a string that the text begins inside of: each follows an odd number of
backslashes. -/
def Unclosed (cs : List Char) : Prop :=
  ∀ before after, cs = before ++ '"' :: after → Odd (backslashes before)

/-- What a string holds between its quotes: no quote in it ends the string, and one after it does. -/
structure IsInside (cs : List Char) : Prop where
  unclosed : Unclosed cs
  ends : Even (backslashes cs)

theorem backslashes_le (cs : List Char) : backslashes cs ≤ cs.length :=
  (List.rtakeWhile_suffix _ _).length_le

theorem backslashes_cons (c : Char) (cs : List Char) :
    backslashes (c :: cs) =
      if backslashes cs = cs.length ∧ c = '\\' then cs.length + 1 else backslashes cs := by
  have length : backslashes cs = (cs.reverse.takeWhile (· = '\\')).length := by
    rw [backslashes, List.rtakeWhile, List.length_reverse]
  rw [length, backslashes, List.rtakeWhile, List.length_reverse, List.reverse_cons, List.takeWhile_append,
    List.length_reverse]
  by_cases all : (cs.reverse.takeWhile (· = '\\')).length = cs.length
  · by_cases slash : c = '\\' <;> simp [all, slash]
  · simp [all]

theorem backslashes_plain {c : Char} (plain : c ≠ '\\') (cs : List Char) :
    backslashes (c :: cs) = backslashes cs := by
  rw [backslashes_cons, if_neg fun h => plain h.2]

/-- A backslash takes the next character along, even if that is a backslash. -/
theorem even_backslashes_escape (c : Char) (cs : List Char) :
    Even (backslashes ('\\' :: c :: cs)) ↔ Even (backslashes cs) := by
  have short := backslashes_le cs
  have first := backslashes_cons c cs
  have second := backslashes_cons '\\' (c :: cs)
  rw [List.length_cons] at second
  by_cases run : backslashes cs = cs.length ∧ c = '\\'
  · rw [if_pos run] at first
    rw [second, if_pos ⟨first, rfl⟩, run.1, add_assoc, Nat.even_add]
    simp
  · rw [if_neg run] at first
    rw [second, first, if_neg]
    omega

theorem unclosed_nil : Unclosed [] := by
  intro before after split
  simp at split

theorem not_unclosed_quote (cs : List Char) : ¬ Unclosed ('"' :: cs) := by
  intro unclosed
  have odd := unclosed [] cs rfl
  simp [backslashes] at odd

theorem unclosed_slash : Unclosed ['\\'] := by
  intro before after split
  cases before with
  | nil => cases split
  | cons c before => simp at split

theorem unclosed_plain {c : Char} (quote : c ≠ '"') (plain : c ≠ '\\') (cs : List Char) :
    Unclosed (c :: cs) ↔ Unclosed cs := by
  constructor
  · intro unclosed before after split
    rw [← backslashes_plain plain]
    exact unclosed (c :: before) after (by rw [split, List.cons_append])
  · intro unclosed before after split
    cases before with
    | nil => exact absurd (List.cons.inj split).1 quote
    | cons d before =>
        obtain ⟨rfl, rest⟩ := List.cons.inj split
        rw [backslashes_plain plain]
        exact unclosed before after rest

theorem unclosed_escape (c : Char) (cs : List Char) : Unclosed ('\\' :: c :: cs) ↔ Unclosed cs := by
  constructor
  · intro unclosed before after split
    rw [← Nat.not_even_iff_odd, ← even_backslashes_escape c, Nat.not_even_iff_odd]
    exact unclosed ('\\' :: c :: before) after (by rw [split]; rfl)
  · intro unclosed before after split
    match before with
    | [] => cases split
    | [d] =>
        obtain ⟨rfl, -⟩ := List.cons.inj split
        exact odd_one
    | d :: e :: before =>
        obtain ⟨rfl, rest⟩ := List.cons.inj split
        obtain ⟨rfl, tail⟩ := List.cons.inj rest
        rw [← Nat.not_even_iff_odd, even_backslashes_escape, Nat.not_even_iff_odd]
        exact unclosed before after tail

theorem isInside_escape (c : Char) (cs : List Char) : IsInside ('\\' :: c :: cs) ↔ IsInside cs := by
  constructor
  · rintro ⟨unclosed, ends⟩
    exact ⟨(unclosed_escape c cs).1 unclosed, (even_backslashes_escape c cs).1 ends⟩
  · rintro ⟨unclosed, ends⟩
    exact ⟨(unclosed_escape c cs).2 unclosed, (even_backslashes_escape c cs).2 ends⟩

theorem isInside_plain {c : Char} (quote : c ≠ '"') (plain : c ≠ '\\') (cs : List Char) :
    IsInside (c :: cs) ↔ IsInside cs := by
  constructor
  · rintro ⟨unclosed, ends⟩
    exact ⟨(unclosed_plain quote plain cs).1 unclosed, backslashes_plain plain cs ▸ ends⟩
  · rintro ⟨unclosed, ends⟩
    exact ⟨(unclosed_plain quote plain cs).2 unclosed, (backslashes_plain plain cs).symm ▸ ends⟩

theorem ne_slash_of_last {c : Char} {rest : List Char} (lone : c = '\\' → rest = [] → False)
    (escape : ∀ d more, c = '\\' → rest = d :: more → False) : c ≠ '\\' := by
  intro slash
  cases rest with
  | nil => exact lone slash rfl
  | cons d rest => exact escape d rest slash rfl

/-- A string is read up to the first quote that ends it. -/
theorem stringBody?_eq_some_iff {cs body after : List Char} :
    stringBody? cs = some (body, after) ↔
      ∃ inside, body = inside ++ ['"'] ∧ cs = inside ++ '"' :: after ∧ IsInside inside := by
  fun_induction stringBody? cs generalizing body after with
  | case1 => simp
  | case2 rest =>
      constructor
      · intro read
        simp only [Option.some.injEq, Prod.mk.injEq] at read
        obtain ⟨rfl, rfl⟩ := read
        exact ⟨[], rfl, rfl, unclosed_nil, by simp [backslashes]⟩
      · rintro ⟨inside, rfl, split, unclosed, ends⟩
        cases inside with
        | nil =>
            obtain ⟨-, rfl⟩ := List.cons.inj split
            rfl
        | cons c inside =>
            obtain ⟨rfl, -⟩ := List.cons.inj split
            exact absurd unclosed (not_unclosed_quote inside)
  | case3 =>
      constructor
      · intro read
        cases read
      · rintro ⟨inside, -, split, -⟩
        cases inside with
        | nil => cases split
        | cons c inside => simp at split
  | case4 c rest ih =>
      rw [Option.map_eq_some_iff]
      constructor
      · rintro ⟨⟨body', after'⟩, read, same⟩
        obtain ⟨inside, rfl, rfl, isInside⟩ := ih.1 read
        obtain ⟨rfl, rfl⟩ := Prod.mk.inj same
        exact ⟨'\\' :: c :: inside, rfl, rfl, (isInside_escape c inside).2 isInside⟩
      · rintro ⟨inside, rfl, split, isInside⟩
        cases inside with
        | nil => cases split
        | cons d more =>
            obtain ⟨rfl, rest'⟩ := List.cons.inj split
            cases more with
            | nil =>
                -- one backslash before the quote leaves the string open
                exact absurd isInside.ends (by decide)
            | cons e inside =>
                obtain ⟨rfl, tail⟩ := List.cons.inj rest'
                refine ⟨(inside ++ ['"'], after), ih.2 ⟨inside, rfl, tail, ?_⟩, rfl⟩
                exact (isInside_escape c inside).1 isInside
  | case5 c rest quote lone escape ih =>
      have plain := ne_slash_of_last lone escape
      rw [Option.map_eq_some_iff]
      constructor
      · rintro ⟨⟨body', after'⟩, read, same⟩
        obtain ⟨inside, rfl, rfl, isInside⟩ := ih.1 read
        obtain ⟨rfl, rfl⟩ := Prod.mk.inj same
        exact ⟨c :: inside, rfl, rfl, (isInside_plain quote plain inside).2 isInside⟩
      · rintro ⟨inside, rfl, split, isInside⟩
        cases inside with
        | nil => exact absurd (List.cons.inj split).1 quote
        | cons d inside =>
            obtain ⟨rfl, tail⟩ := List.cons.inj split
            refine ⟨(inside ++ ['"'], after), ih.2 ⟨inside, rfl, tail, ?_⟩, rfl⟩
            exact (isInside_plain quote plain inside).1 isInside

/-- No string is read where no quote ends it. -/
theorem stringBody?_eq_none_iff {cs : List Char} : stringBody? cs = none ↔ Unclosed cs := by
  fun_induction stringBody? cs with
  | case1 => simp [unclosed_nil]
  | case2 rest => simp [not_unclosed_quote]
  | case3 => simp [unclosed_slash]
  | case4 c rest ih => rw [Option.map_eq_none_iff, ih, unclosed_escape]
  | case5 c rest quote lone escape ih =>
      have plain := ne_slash_of_last lone escape
      rw [Option.map_eq_none_iff, ih, unclosed_plain quote plain]

/-- What is read as a string is read again whatever follows it. -/
theorem stringBody?_swap {input body rest : List Char} (h : stringBody? input = some (body, rest))
    (other : List Char) : stringBody? (body ++ other) = some (body, other) := by
  obtain ⟨inside, rfl, -, isInside⟩ := stringBody?_eq_some_iff.1 h
  exact stringBody?_eq_some_iff.2 ⟨inside, rfl, List.append_assoc _ _ _, isInside⟩

theorem stringBody?_extend {cs body after : List Char} (h : stringBody? cs = some (body, after))
    (more : List Char) : stringBody? (cs ++ more) = some (body, after ++ more) := by
  rw [stringBody?_append h, List.append_assoc]
  exact stringBody?_swap h (after ++ more)

end Lexeme

end MettaSyntax
