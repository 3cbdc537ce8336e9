import MettaSyntax.Tree.Basic

/-! # Finding nodes by their place in the text

Both searches go down from the root and choose at each node the one child whose span fits. -/

set_option autoImplicit false

namespace MettaSyntax

namespace Tree

/-- The child over the byte with the given offset: the first that ends after it, unless even that
begins after it. -/
def childOver? (byte : Nat) (t : Tree) : Option Tree :=
  (t.children.find? (byte < ·.span.stop.byte)).filter (·.span.start.byte ≤ byte)

theorem mem_of_childOver? {byte : Nat} {t c : Tree} (h : t.childOver? byte = some c) :
    c ∈ t.children := by
  rw [childOver?, Option.filter_eq_some_iff] at h
  exact List.mem_of_find?_eq_some h.1

/-- The last visible node on the way down to a byte, or else `best`. -/
def lowestOver (byte : Nat) (best t : Tree) : Tree :=
  match _h : t.childOver? byte with
  | some c => lowestOver byte (if c.isVisible then c else best) c
  | none => best
  termination_by t.size
  decreasing_by exact size_lt_of_mem (mem_of_childOver? _h)

/-- The smallest visible node over the byte with the given offset, or else the root. -/
def nodeOver (byte : Nat) (root : Tree) : Tree :=
  lowestOver byte root root

/-- The child with children around a stretch: of those that do not begin after it does, the first
that does not end before it. -/
def childAround? (s : Span) (t : Tree) : Option Tree :=
  (t.children.takeWhile (·.span.start.byte ≤ s.start.byte)).find? fun c =>
    s.stop.byte ≤ c.span.stop.byte && !c.children.isEmpty

theorem mem_of_childAround? {s : Span} {t c : Tree} (h : t.childAround? s = some c) :
    c ∈ t.children :=
  (List.takeWhile_sublist _).subset (List.mem_of_find?_eq_some h)

/-- The last list on the way down to a leaf with the given span, or else `best`. -/
def lowestListAround (s : Span) (best : Option Tree) (t : Tree) : Option Tree :=
  match _h : t.childAround? s with
  | some c => lowestListAround s (if c.isNonterminal .list then some c else best) c
  | none => best
  termination_by t.size
  decreasing_by exact size_lt_of_mem (mem_of_childAround? _h)

def listAround? (s : Span) (root : Tree) : Option Tree :=
  lowestListAround s none root

end Tree

end MettaSyntax
