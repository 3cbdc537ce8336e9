import MettaSyntax.Grammar.Production

/-! # The parse table

The states of the shift-reduce parser, what it does in a state on the next token, and where it goes
on once a production has been completed.  A state tells what has been read of the innermost open
list, or of the file.  Some states wait for a token; in each of the others one production is
complete, and every reduction leads to a state of smaller rank. -/

set_option autoImplicit false

namespace MettaSyntax

inductive Element where
  | list
  | atom
  deriving DecidableEq

inductive State where
  /-- Nothing has been read. -/
  | start
  /-- At least one expression of the file has been read. -/
  | sequence
  /-- The whole file has been read. -/
  | finished
  /-- The file's first expression has been read. -/
  | firstOf (e : Element)
  /-- A later expression of the file has been read. -/
  | nextOf (e : Element)
  /-- The token inside an atom has been read. -/
  | word (kind : AtomKind)
  /-- The opening parenthesis of a list has been read. -/
  | opened
  /-- A list and its head have been begun. -/
  | headed (e : Element)
  /-- A list, its head and at least one argument have been begun. -/
  | applied (e : Element)
  /-- A list's first argument has been read. -/
  | firstArgument (e : Element)
  /-- A later argument of a list has been read. -/
  | nextArgument (e : Element)
  /-- A list without elements has been closed. -/
  | closedEmpty
  /-- A list with only a head has been closed. -/
  | closedHead (e : Element)
  /-- A list with arguments has been closed. -/
  | closedFull (e : Element)
  deriving DecidableEq

inductive Action where
  | shift (next : State)
  /-- Take the token without leaving the state. -/
  | shiftExtra
  | reduce (production : Production)
  | accept
  deriving DecidableEq

namespace Action

def production? : Action → Option Production
  | .reduce p => some p
  | _ => none

def next? : Action → Option State
  | .shift s => some s
  | _ => none

end Action

namespace State

/-- What a token does where an element may begin. -/
def begin : TokenKind → Option Action
  | .opening => some (.shift .opened)
  | .atom k => some (.shift (.word k))
  | _ => none

/-- What the parser does in a state on the next token, a comment or a stretch without token
apart. -/
def structuralAction : State → TokenKind → Option Action
  | .start, .ending => some (.reduce .emptyFile)
  | .start, t => begin t
  | .sequence, .ending => some (.reduce .file)
  | .sequence, t => begin t
  | .finished, .ending => some .accept
  | .finished, _ => none
  | .firstOf _, .closing => none
  | .firstOf _, _ => some (.reduce .firstExpression)
  | .nextOf _, .closing => none
  | .nextOf _, _ => some (.reduce .nextExpression)
  | .word _, _ => some (.reduce .atom)
  | .opened, .closing => some (.shift .closedEmpty)
  | .opened, t => begin t
  | .headed e, .closing => some (.shift (.closedHead e))
  | .headed _, t => begin t
  | .applied e, .closing => some (.shift (.closedFull e))
  | .applied _, t => begin t
  | .firstArgument _, .ending => none
  | .firstArgument _, _ => some (.reduce .firstArgument)
  | .nextArgument _, .ending => none
  | .nextArgument _, _ => some (.reduce .nextArgument)
  | .closedEmpty, _ => some (.reduce .emptyList)
  | .closedHead _, _ => some (.reduce .headList)
  | .closedFull _, _ => some (.reduce .fullList)

/-- What the parser does in a state on the next token.  A comment is welcome everywhere and a
stretch without token nowhere. -/
def action (s : State) : TokenKind → Option Action
  | .comment => some .shiftExtra
  | .unlexable => none
  | t => s.structuralAction t

/-- Where the parser goes on when, back in a state, it has built a nonterminal there. -/
def goto : State → Nonterminal → Option State
  | .start, .sourceFile => some .finished
  | .start, .expressions => some .sequence
  | .start, .list => some (.firstOf .list)
  | .start, .atom => some (.firstOf .atom)
  | .sequence, .list => some (.nextOf .list)
  | .sequence, .atom => some (.nextOf .atom)
  | .opened, .list => some (.headed .list)
  | .opened, .atom => some (.headed .atom)
  | .headed e, .arguments => some (.applied e)
  | .headed _, .list => some (.firstArgument .list)
  | .headed _, .atom => some (.firstArgument .atom)
  | .applied _, .list => some (.nextArgument .list)
  | .applied _, .atom => some (.nextArgument .atom)
  | _, _ => none

/-- How many reductions may still follow one another in a state. -/
def rank : State → Nat
  | .finished => 0
  | .start => 1
  | .sequence => 1
  | .opened => 1
  | .headed _ => 1
  | .applied _ => 1
  | .firstOf _ => 2
  | .nextOf _ => 2
  | .firstArgument _ => 2
  | .nextArgument _ => 2
  | .word _ => 3
  | .closedEmpty => 3
  | .closedHead _ => 3
  | .closedFull _ => 3

/-- The production to complete in a state before the token `t` is looked at. -/
def reduction? (s : State) (t : TokenKind) : Option Production :=
  (s.action t).bind Action.production?

/-- The production that some token other than the end of the text lets the parser complete. -/
def completion? (s : State) : Option Production :=
  (TokenKind.structural.filter (· ≠ .ending)).findSome? s.reduction?

def shift? (s : State) (t : TokenKind) : Option State :=
  (s.action t).bind Action.next?

/-- The first kind of token that, were it there, would complete a production. -/
def insertion? (s : State) : Option TokenKind :=
  (TokenKind.structural.filter (· ≠ .ending)).find? fun t =>
    ((s.shift? t).bind completion?).isSome

/-- Whether the parser can go on in a state at the end of the text. -/
def endsWell (s : State) : Bool :=
  (s.action .ending).isSome

theorem rank_goto_lt {s b s' : State} {t : TokenKind} {p : Production}
    (h : s.reduction? t = some p) (hg : b.goto p.result = some s') : s'.rank < s.rank := by
  cases s <;> cases t <;>
    simp [reduction?, action, structuralAction, begin, Action.production?] at h <;>
    subst h <;> cases b <;> simp [goto, Production.result] at hg <;> subst hg <;> simp [rank]

/-- While the head, or an argument, of a list is awaited, a closing parenthesis completes it. -/
theorem insertion?_open (e : Element) :
    opened.insertion? = some .closing ∧ (headed e).insertion? = some .closing ∧
      (applied e).insertion? = some .closing := by
  cases e <;> decide

end State

end MettaSyntax
