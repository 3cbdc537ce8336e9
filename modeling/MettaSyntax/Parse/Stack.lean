import MettaSyntax.Grammar.Table
import MettaSyntax.Tree.Basic

/-! # The parse stack

The trees that have been built and not yet taken into a larger one, each with the state that it
leads to; the last one built comes first.  A reduction takes as many trees off the stack as its
production asks for, not counting extras.  Extras between them become children as well, while
those on top of the stack stay there, on top of the new tree. -/

set_option autoImplicit false

namespace MettaSyntax

structure Frame where
  tree : Tree
  state : State

abbrev Stack := List Frame

namespace Stack

def state : Stack → State
  | [] => .start
  | f :: _ => f.state

/-- The place up to which the text has been read. -/
def position : Stack → Position
  | [] => .origin
  | f :: _ => f.tree.span.stop

/-- The trees on the stack in the order of the text. -/
def trees (s : Stack) : List Tree :=
  (s.map Frame.tree).reverse

/-- Puts trees on the stack, the first one lowest, which all lead to one state. -/
def pushAll (s : Stack) (state : State) (row : List Tree) : Stack :=
  row.foldl (fun s t => ⟨t, state⟩ :: s) s

/-- Takes `n` trees off the stack along with the extras above the last of them, and puts them, in
the order of the text, before `row`. -/
def pop : Nat → Stack → List Tree → List Tree × Stack
  | 0, s, row => (row, s)
  | _ + 1, [], row => (row, [])
  | n + 1, f :: s, row => pop (if f.tree.isExtra then n + 1 else n) s (f.tree :: row)

def reduce? (s : Stack) (p : Production) : Option Stack :=
  let (row, below) := pop p.arity s []
  let (body, extras) := Tree.splitTrailing row
  (below.state.goto p.result).map fun next =>
    pushAll (⟨.ofChildren (.production p) s.position body, next⟩ :: below) next extras

/-- Completes productions as long as `choose` names one, at most `n` of them. -/
def reduceWhile (choose : State → Option Production) : Nat → Stack → Stack
  | 0, s => s
  | n + 1, s =>
      match (choose s.state).bind s.reduce? with
      | some s' => reduceWhile choose n s'
      | none => s

/-- Completes the productions that come before the token `t`. -/
def settle (t : TokenKind) (s : Stack) : Stack :=
  reduceWhile (·.reduction? t) s.state.rank s

/-- Completes the productions that can be completed whatever comes next. -/
def complete (s : Stack) : Stack :=
  reduceWhile State.completion? s.state.rank s

/-- Takes the next tree of the production that is being read off the stack, with the extras above
it, if there is one. -/
def peel? : Stack → Option Stack
  | [] => none
  | f :: s => if f.tree.isExtra then peel? s else some s

/-- The stack and what is left of it after taking off one tree after another, at most `n` of
them. -/
def suffixes : Nat → Stack → List Stack
  | 0, s => [s]
  | n + 1, s =>
      match s.peel? with
      | some s' => s :: suffixes n s'
      | none => [s]

/-- The trees that lie on the stack above `below`, in the order of the text. -/
def above (s below : Stack) : List Tree :=
  trees (s.take (s.length - below.length))

/-- The trees of an error on top of the stack, and the stack without it. -/
def takeError : Stack → List Tree × Stack
  | ⟨.node (.error _) _ children, _⟩ :: s => (children, s)
  | s => ([], s)

/-- Puts a row of trees that fit no production on the stack as one error.  It takes over the trees
of an error that it would stand next to, and leaves the extras at its end outside. -/
def pushError (s : Stack) (row : List Tree) : Stack :=
  let (broken, below) := takeError s
  let (body, extras) := Tree.splitTrailing (broken ++ row)
  let errors :=
    if body.isEmpty then [] else [.ofChildren (.error false) (position below) body]
  pushAll below (state s) (errors ++ extras)

end Stack

end MettaSyntax
