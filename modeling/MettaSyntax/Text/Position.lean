/-! # Positions in a text

A position counts the bytes of the UTF-8 encoding before it, the newlines before it, and the bytes
since the last newline.  Walking over a list of characters moves a position forward by what the
characters occupy, so every position the library hands out is `Position.origin.after` of a prefix of
its text. -/

set_option autoImplicit false

namespace MettaSyntax

/-- A place between two characters of a text. -/
structure Position where
  byte : Nat
  row : Nat
  column : Nat
  deriving DecidableEq

namespace Position

def origin : Position := ⟨0, 0, 0⟩

/-- The place after `c`, when `p` is the place before it. -/
def next (p : Position) (c : Char) : Position :=
  if c = '\n' then ⟨p.byte + 1, p.row + 1, 0⟩
  else ⟨p.byte + c.utf8Size, p.row, p.column + c.utf8Size⟩

/-- The place after all of `cs`, when `p` is the place before them. -/
def after (p : Position) (cs : List Char) : Position :=
  cs.foldl next p

@[simp] theorem after_nil (p : Position) : p.after [] = p := rfl

@[simp] theorem after_cons (p : Position) (c : Char) (cs : List Char) :
    p.after (c :: cs) = (p.next c).after cs := rfl

theorem after_append (p : Position) (xs ys : List Char) :
    p.after (xs ++ ys) = (p.after xs).after ys := by
  simp [after, List.foldl_append]

/-- Order of reading: by row, then by column. -/
def before (p q : Position) : Bool :=
  p.row < q.row || (p.row == q.row && p.column < q.column)

end Position

/-- A stretch of text between two positions. -/
structure Span where
  start : Position
  stop : Position
  deriving DecidableEq

namespace Span

def empty (p : Position) : Span := ⟨p, p⟩

def bytes (s : Span) : Nat := s.stop.byte - s.start.byte

def rows (s : Span) : Nat := s.stop.row - s.start.row

@[simp] theorem bytes_empty (p : Position) : (empty p).bytes = 0 := by simp [bytes, empty]

end Span

end MettaSyntax
