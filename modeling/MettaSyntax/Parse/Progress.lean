import MettaSyntax.Parse.Stack

/-! # Reading tokens one after another

A token that the state of the stack has no use for is skipped, and so is everything after it until
a token comes that the state can shift; what was skipped becomes an error before that token.
Comments in between belong to the error unless they stand at its end. -/

set_option autoImplicit false

namespace MettaSyntax

/-- The tokens that are being skipped: a run of them, and the comments that follow it. -/
structure Skipping where
  run : Tree
  comments : List Tree

namespace Skipping

def start (t : Token) : Skipping :=
  ⟨.ofChildren .skipped t.span.start [.ofToken t], []⟩

/-- The trees of what is being skipped, in the order of the text. -/
def row (k : Skipping) : List Tree :=
  k.run :: k.comments

def skip (k : Skipping) (t : Token) : Skipping :=
  ⟨.ofChildren .skipped t.span.start (k.row ++ [(start t).run]), []⟩

def comment (k : Skipping) (t : Token) : Skipping :=
  ⟨k.run, k.comments ++ [.ofToken t]⟩

end Skipping

/-- How far the parser has come: a stack, and what is being skipped after it. -/
structure Progress where
  stack : Stack
  skipping : Option Skipping

namespace Progress

def start : Progress := ⟨[], none⟩

/-- Reads a token when nothing is being skipped. -/
def readToken (s : Stack) (t : Token) : Progress :=
  if t.kind = .comment then ⟨⟨.ofToken t, s.state⟩ :: s, none⟩
  else
    let s := s.settle t.kind
    match s.state.shift? t.kind with
    | some next => ⟨⟨.ofToken t, next⟩ :: s, none⟩
    | none => ⟨s.complete, some (.start t)⟩

/-- Reads a token when others before it have been skipped.  Where the token can be shifted the parser
could also skip it with them, and two ways would be open; since that one is the dearer from its first
token on, it is given up at once, and only the other is followed. -/
def resume (s : Stack) (k : Skipping) (t : Token) : Progress :=
  if t.kind = .comment then ⟨s, some (k.comment t)⟩
  else
    match s.state.shift? t.kind with
    | some next => ⟨⟨.ofToken t, next⟩ :: s.pushError k.row, none⟩
    | none => ⟨s, some (k.skip t)⟩

def read (p : Progress) (t : Token) : Progress :=
  match p.skipping with
  | none => readToken p.stack t
  | some k => resume p.stack k t

def readAll (tokens : List Token) : Progress :=
  tokens.foldl read start

end Progress

end MettaSyntax
