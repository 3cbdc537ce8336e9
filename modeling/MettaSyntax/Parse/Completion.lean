import MettaSyntax.Parse.Progress
import MettaSyntax.Token.Lexer
import MettaSyntax.Tree.Cost

/-! # Completing the tree at the end of the text

A text whose end comes at the right time has one tree.  Otherwise there are up to three ways to get
a tree: the whole text may count as an error; what was read since an earlier point, at which the
text might have ended, may be given up as an error; and the token that the innermost open list waits
for may be supplied, after which the list around it is in the same situation.  The ways are tried
in a fixed order, a bounded number of times, and the cheapest tree is kept. -/

set_option autoImplicit false

namespace MettaSyntax

namespace Completion

/-- How many trees off the stack a way back may go. -/
def reach : Nat := 16

/-- How many complete trees may be compared. -/
def rounds : Nat := 6

/-- How much dearer than another a way may be, the difference being taken once, and once more for each
visible node that the other has read since its last error. -/
def margin : Nat := 1600

/-- The visible nodes that supplying a token adds after the error: the token, and the list that it
completes. -/
def suppliedNodes : Nat := 2

/-- The tree of a row of trees that cannot be read as a file. -/
def broken (row : List Tree) (ending : Token) : Tree :=
  .ofChildren (.error true) .origin (row ++ [.ofToken ending])

/-- The tree of a row that ends, extras apart, with a finished file: the file takes in what stands
around it. -/
def unfold (row : List Tree) : List Tree :=
  let (body, extras) := Tree.splitTrailing row
  body.dropLast ++ (body.getLast?.elim [] Tree.children) ++ extras

/-- The tree of a stack on which the text may end. -/
def whole? (s : Stack) (ending : Token) : Option Tree :=
  let s := s.settle .ending
  if s.state.action .ending = some .accept then
    some (.ofChildren (.production .file) .origin
      (unfold (s.trees ++ [.ofToken ending])))
  else none

/-- The tree in which everything above `below` is given up. -/
def givenUp? (s below : Stack) (row : List Tree) (ending : Token) : Option Tree :=
  whole? (below.pushError (s.above below ++ row)) ending

/-- The stack after supplying the token that the innermost open list waits for. -/
def supply? (s : Stack) : Option Stack := do
  let kind ← s.state.insertion?
  let next ← s.state.shift? kind
  return Stack.complete (⟨.missingAt kind s.position, next⟩ :: s)

def cost (s : Stack) : Nat :=
  Tree.errorCosts s.trees

/-- What it costs to go back `depth` trees to `below`. -/
def costBack (s below : Stack) (depth : Nat) : Nat :=
  cost s + Cost.recovery + Cost.skippedTree * depth +
    Cost.stretch ⟨below.position, s.position⟩

/-- Whether a way back at this cost is hopeless: the best tree so far costs no more, or supplying
a token, which leads to `supplied`, costs far less. -/
def hopeless (supplied : Option Stack) (best : Option Tree) (price : Nat) : Bool :=
  best.any (·.errorCost ≤ price) ||
    supplied.any fun r => margin < (price - cost r) * (1 + suppliedNodes)

/-- The first of the stacks, one tree more being given up for each, on which the text may end.  One
in the state to which supplying a token leads as well is passed over. -/
def wayBack? (s : Stack) (supplied : Option Stack) (best : Option Tree) :
    Nat → List Stack → Option Stack
  | _, [] => none
  | depth, below :: more =>
      if supplied.any (·.state = below.state) then wayBack? s supplied best (depth + 1) more
      else if hopeless supplied best (costBack s below depth) then none
      else if below.state.endsWell then some below
      else wayBack? s supplied best (depth + 1) more

def keep (best : Option Tree) (other : Option Tree) : Option Tree :=
  match best, other with
  | some t, some u => some (t.prefer u)
  | some t, none => some t
  | none, u => u

/-- The tree of a stack whose last list is open at the end of the text, when at most `n` more trees
may be compared. -/
def close (ending : Token) (n : Nat) (s : Stack) (best : Option Tree) : Option Tree :=
  match n with
  | 0 => best
  | n + 1 =>
      let supplied := supply? s
      let back := wayBack? s supplied best 2 (s.suffixes (reach - 1)).tail
      let best := keep best (some (broken s.trees ending))
      if best.any (·.errorCost < cost s + Cost.recovery) then best
      else
        let whole := supplied.bind (whole? · ending)
        let best := keep (keep best whole) (back.bind (givenUp? s · [] ending))
        match whole, supplied with
        | none, some r => close ending (if back.isSome then n - 1 else n) r best
        | _, _ => best
  termination_by n
  decreasing_by split <;> omega

/-- The tree of a stack after which tokens were being skipped when the text ended. -/
def abandon (ending : Token) (s : Stack) (k : Skipping) : Option Tree :=
  let back := (s.suffixes (reach - 1)).find? (·.state.endsWell)
  keep (some (broken (s.trees ++ k.row) ending)) (back.bind (givenUp? s · k.row ending))

/-- The tree of a text, once all of its tokens have been read. -/
def finish (ending : Token) (p : Progress) : Option Tree :=
  match p.skipping with
  | some k => abandon ending p.stack k
  | none =>
      match whole? p.stack ending with
      | some t => some t
      | none => close ending rounds (p.stack.settle .ending).complete none

end Completion

/-- The syntax tree of a text, if there is a way to complete one. -/
def parse? (text : List Char) : Option Tree :=
  Completion.finish (Lexer.endToken text) (Progress.readAll (Lexer.tokens text))

def parse (text : List Char) : Tree :=
  (parse? text).getD (Completion.broken [] (Lexer.endToken text))

end MettaSyntax
