import Mathlib.Computability.RegularExpressions
import Mathlib.Tactic.FinCases
import Mathlib.Tactic.IntervalCases
import MettaSyntax.Token.Number

/-! # Numerals are a regular language

`Numeral.pattern` is the regular expression for numerals, and the words that it matches are those that
the reader takes for numerals.  What has been read of a word so far leaves an expression for what may
follow, `Numeral.remainder`, and reading one more character takes the first character off its words. -/

set_option autoImplicit false

namespace MettaSyntax

namespace Numeral

open RegularExpression
open scoped Computability

/-- One digit. -/
def digit : RegularExpression Char :=
  ("0123456789".toList.map char).sum

/-- One digit or more. -/
def digits : RegularExpression Char :=
  digit * digit.star

/-- Nothing, or a point and digits. -/
def fractional : RegularExpression Char :=
  1 + char '.' * digits

/-- An optional minus sign, digits, and optionally a point with more digits. -/
def pattern : RegularExpression Char :=
  (1 + char '-') * (digits * fractional)

/-! ## Digits -/

theorem isDigit_iff (c : Char) : isDigit c = true ↔ c ∈ "0123456789".toList := by
  constructor
  · intro h
    simp only [isDigit, Bool.and_eq_true, decide_eq_true_eq, Char.le_def] at h
    obtain ⟨low, high⟩ := h
    have bounds : 48 ≤ c.toNat ∧ c.toNat ≤ 57 := ⟨low, high⟩
    rw [← c.ofNat_toNat]
    generalize c.toNat = n at bounds
    obtain ⟨low', high'⟩ := bounds
    interval_cases n <;> decide
  · intro h
    fin_cases h <;> decide

theorem mem_char {c : Char} {word : List Char} : word ∈ (char c).matches' ↔ word = [c] :=
  Iff.rfl

theorem mem_add {word : List Char} {r s : RegularExpression Char} :
    word ∈ (r + s).matches' ↔ word ∈ r.matches' ∨ word ∈ s.matches' := by
  rw [matches'_add, Language.mem_add]

theorem mem_sum_char {cs word : List Char} :
    word ∈ (cs.map char).sum.matches' ↔ ∃ c ∈ cs, word = [c] := by
  induction cs with
  | nil => simp
  | cons c cs ih =>
      rw [List.map_cons, List.sum_cons, mem_add, ih, mem_char, List.exists_mem_cons_iff]

section Words

variable {c d : Char} {word : List Char} {r : RegularExpression Char}

theorem cons_mem_char_mul : c :: word ∈ (char d * r).matches' ↔ c = d ∧ word ∈ r.matches' := by
  rw [matches'_mul, Language.mem_mul]
  constructor
  · rintro ⟨front, one, rest, mem, same⟩
    obtain rfl := mem_char.1 one
    obtain ⟨rfl, rfl⟩ := List.cons.inj same
    exact ⟨rfl, mem⟩
  · rintro ⟨rfl, mem⟩
    exact ⟨[c], mem_char.2 rfl, word, mem, rfl⟩

theorem cons_mem_digit_mul : c :: word ∈ (digit * r).matches' ↔ isDigit c = true ∧ word ∈ r.matches' := by
  rw [matches'_mul, Language.mem_mul, isDigit_iff]
  constructor
  · rintro ⟨front, one, rest, mem, same⟩
    obtain ⟨d, isDigit, rfl⟩ := mem_sum_char.1 one
    obtain ⟨rfl, rfl⟩ := List.cons.inj same
    exact ⟨isDigit, mem⟩
  · rintro ⟨isDigit, mem⟩
    exact ⟨[c], mem_sum_char.2 ⟨c, isDigit, rfl⟩, word, mem, rfl⟩

theorem nil_not_mem_char_mul : [] ∉ (char d * r).matches' := by
  rw [matches'_mul, Language.mem_mul]
  rintro ⟨front, one, rest, -, same⟩
  obtain rfl := mem_char.1 one
  cases same

theorem nil_not_mem_digit_mul : [] ∉ (digit * r).matches' := by
  rw [matches'_mul, Language.mem_mul]
  rintro ⟨front, one, rest, -, same⟩
  obtain ⟨d, -, rfl⟩ := mem_sum_char.1 one
  cases same

theorem mem_epsilon : word ∈ (1 : RegularExpression Char).matches' ↔ word = [] := by
  rw [matches'_epsilon, Language.mem_one]

theorem mem_star_mul : word ∈ (digit.star * r).matches' ↔
    word ∈ r.matches' ∨ word ∈ (digit * (digit.star * r)).matches' := by
  rw [← Language.mem_add]
  simp only [matches'_mul, matches'_star]
  rw [← mul_assoc, ← one_add_mul, Language.one_add_self_mul_kstar_eq_kstar]

theorem mem_star : word ∈ digit.star.matches' ↔ word = [] ∨ word ∈ digits.matches' := by
  rw [← mem_epsilon, ← Language.mem_add, digits, matches'_epsilon, matches'_mul, matches'_star,
    Language.one_add_self_mul_kstar_eq_kstar]

theorem mem_digits_mul : word ∈ (digits * r).matches' ↔ word ∈ (digit * (digit.star * r)).matches' := by
  rw [digits, matches'_mul, matches'_mul, matches'_mul, matches'_mul, mul_assoc]

theorem mem_fractional :
    word ∈ fractional.matches' ↔ word = [] ∨ word ∈ (char '.' * digits).matches' := by
  rw [fractional, mem_add, mem_epsilon]

theorem mem_pattern : word ∈ pattern.matches' ↔
    word ∈ (digits * fractional).matches' ∨ word ∈ (char '-' * (digits * fractional)).matches' := by
  rw [pattern, matches'_mul, matches'_add, matches'_epsilon, one_add_mul, Language.mem_add, ← matches'_mul]

end Words

/-! ## What may follow -/

/-- An expression for the words that complete what has been read of a numeral. -/
def remainder : Numeral → RegularExpression Char
  | .start => pattern
  | .sign => digits * fractional
  | .integer => digit.star * fractional
  | .point => digits
  | .fraction => digit.star
  | .invalid => 0

/-- Reading a character takes it off the words that may follow. -/
theorem cons_mem_remainder (s : Numeral) (c : Char) (word : List Char) :
    c :: word ∈ (remainder s).matches' ↔ word ∈ (remainder (s.step c)).matches' := by
  have nonempty : c :: word ≠ [] := List.cons_ne_nil c word
  cases s with
  | start =>
      rw [remainder, mem_pattern, mem_digits_mul, cons_mem_digit_mul, cons_mem_char_mul, step]
      by_cases minus : c = '-'
      · have other : isDigit '-' = false := rfl
        simp [minus, other, remainder]
      · by_cases digit : isDigit c = true <;> simp [minus, digit, remainder]
  | sign =>
      rw [remainder, mem_digits_mul, cons_mem_digit_mul, step]
      by_cases digit : isDigit c = true <;> simp [digit, remainder]
  | integer =>
      rw [remainder, mem_star_mul, mem_fractional, or_iff_right nonempty, cons_mem_char_mul,
        cons_mem_digit_mul, step]
      by_cases point : c = '.'
      · have other : isDigit '.' = false := rfl
        simp [point, other, remainder]
      · by_cases digit : isDigit c = true <;> simp [point, digit, remainder]
  | point =>
      rw [remainder, digits, cons_mem_digit_mul, step]
      by_cases digit : isDigit c = true <;> simp [digit, remainder]
  | fraction =>
      rw [remainder, mem_star, or_iff_right nonempty, digits, cons_mem_digit_mul, step]
      by_cases digit : isDigit c = true <;> simp [digit, remainder]
  | invalid => rw [step, remainder]; simp

/-- Nothing needs to follow where a numeral may end. -/
theorem nil_mem_remainder (s : Numeral) : [] ∈ (remainder s).matches' ↔ s.complete = true := by
  have fraction : [] ∈ fractional.matches' := mem_fractional.2 (.inl rfl)
  cases s with
  | start =>
      simp only [remainder, mem_pattern, mem_digits_mul, nil_not_mem_digit_mul, nil_not_mem_char_mul,
        or_self, complete, Bool.false_eq_true]
  | sign => simp only [remainder, mem_digits_mul, nil_not_mem_digit_mul, complete, Bool.false_eq_true]
  | integer => simp only [remainder, mem_star_mul, fraction, true_or, complete]
  | point => simp only [remainder, digits, nil_not_mem_digit_mul, complete, Bool.false_eq_true]
  | fraction => simp only [remainder, mem_star, true_or, complete]
  | invalid => simp [remainder, complete]

theorem mem_remainder_iff (s : Numeral) (word : List Char) :
    word ∈ (remainder s).matches' ↔ (word.foldl step s).complete = true := by
  induction word generalizing s with
  | nil => exact nil_mem_remainder s
  | cons c word ih => rw [cons_mem_remainder, ih, List.foldl_cons]

end Numeral

/-- The words that are read as numerals are those that the regular expression matches. -/
theorem isNumeral_iff (word : List Char) : isNumeral word = true ↔ word ∈ Numeral.pattern.matches' :=
  (Numeral.mem_remainder_iff .start word).symm

end MettaSyntax
