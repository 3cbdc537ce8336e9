import MettaSyntax.Tree.Basic

/-! # The cost of errors

When the end of the text leaves several ways to complete a broken tree, the cheapest wins.  Each
recovery costs a flat amount, and each tree, byte and line that it skips adds to that; supplying a
missing token costs a recovery and a little more. -/

set_option autoImplicit false

namespace MettaSyntax

namespace Cost

def recovery : Nat := 500

def missing : Nat := 110 + recovery

def skippedTree : Nat := 100

def skippedByte : Nat := 1

def skippedLine : Nat := 30

/-- The price of skipping over a stretch. -/
def stretch (s : Span) : Nat :=
  skippedByte * s.bytes + skippedLine * s.rows

end Cost

namespace Tree

mutual

/-- The number of visible nodes just below a tree: the children of a hidden child stand in for
it. -/
def visibleChildCount : Tree → Nat
  | .leaf _ _ => 0
  | .node _ _ children => visibleCount children

def visibleCount : List Tree → Nat
  | [] => 0
  | t :: row => (if t.isVisible then 1 else visibleChildCount t) + visibleCount row

end

/-- What skipping a tree costs inside an error: nothing for an extra or a stretch without token, and
for a hidden tree as much as for the visible ones it holds. -/
def skipCost (t : Tree) : Nat :=
  if t.isExtra || (t.isError && t.children.isEmpty) then 0
  else if t.isVisible then Cost.skippedTree
  else Cost.skippedTree * t.visibleChildCount

def skipCosts : List Tree → Nat
  | [] => 0
  | t :: row => skipCost t + skipCosts row

mutual

/-- The cost of all the errors in a tree. -/
def errorCost : Tree → Nat
  | .leaf _ missing => if missing then Cost.missing else 0
  | .node label span children =>
      errorCosts children +
        if label.isBroken then
          skipCosts children + Cost.recovery + Cost.stretch span
        else 0

/-- The cost of the errors in a row of trees, in which a run of skipped tokens does not count: the
error that it belongs to counts its tokens. -/
def errorCosts : List Tree → Nat
  | [] => 0
  | t :: row => (if t.isSkipped then 0 else errorCost t) + errorCosts row

end

def hasError (t : Tree) : Bool :=
  0 < t.errorCost

/-- The better of two trees: the cheaper one, and of two equally costly ones the later, unless
neither has an error. -/
def prefer (earlier later : Tree) : Tree :=
  if later.errorCost < earlier.errorCost then later
  else if earlier.errorCost < later.errorCost then earlier
  else if 0 < earlier.errorCost then later
  else earlier

end Tree

end MettaSyntax
