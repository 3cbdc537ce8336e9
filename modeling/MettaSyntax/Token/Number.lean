/-! # Numerals

A numeral is an optional minus sign, digits, and optionally a point with more digits.  The reader
goes through a word one character at a time and says at the end whether it was a numeral. -/

set_option autoImplicit false

namespace MettaSyntax

/-- What has been read of a numeral so far. -/
inductive Numeral where
  | start
  | sign
  | integer
  | point
  | fraction
  | invalid
  deriving DecidableEq

namespace Numeral

def isDigit (c : Char) : Bool :=
  '0' ≤ c && c ≤ '9'

def step : Numeral → Char → Numeral
  | .start, c => if c = '-' then .sign else if isDigit c then .integer else .invalid
  | .sign, c => if isDigit c then .integer else .invalid
  | .integer, c => if c = '.' then .point else if isDigit c then .integer else .invalid
  | .point, c => if isDigit c then .fraction else .invalid
  | .fraction, c => if isDigit c then .fraction else .invalid
  | .invalid, _ => .invalid

/-- What has been read once the whole word is read. -/
def read (word : List Char) : Numeral :=
  word.foldl step .start

/-- A numeral may end after a digit only. -/
def complete : Numeral → Bool
  | .integer => true
  | .fraction => true
  | _ => false

end Numeral

def isNumeral (word : List Char) : Bool :=
  (Numeral.read word).complete

end MettaSyntax
