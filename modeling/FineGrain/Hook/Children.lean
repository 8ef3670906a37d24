/-!
Children of a component: a single node that may be missing, or a list whose entries may be empty.
Both shapes are read through their slots.
-/

namespace FineGrain.Hook

inductive Children (α : Type) where
  | single (child : Option α)
  | list (slots : List (Option α))
deriving DecidableEq, Repr

/-- Asking for the only child of something with `found` children. -/
inductive ChildrenError where
  | notExactlyOne (found : Nat)
deriving DecidableEq, Repr

namespace ChildrenError

def message : ChildrenError → String
  | notExactlyOne found =>
      "Children::only expected exactly one child element, found " ++ toString found

end ChildrenError

namespace Children

def none : Children α := single Option.none

def one (child : α) : Children α := single (some child)

/-- A list without empty slots. -/
def ofList (children : List α) : Children α := list (children.map some)

/-- The slots in order. A missing single child is no slot; an empty list entry is one. -/
def slots : Children α → List (Option α)
  | single Option.none => []
  | single (some child) => [some child]
  | list slots => slots

def count (children : Children α) : Nat := children.slots.length

/-- The children that are present, in order. -/
def toList (children : Children α) : List α := children.slots.filterMap id

/-- Apply `f` to each child and the index of its slot; empty slots stay empty. -/
def map (f : α → Nat → β) (children : Children α) : List (Option β) :=
  children.slots.zipIdx.map fun (slot, index) => slot.map (f · index)

/-- What `f` answers for each child that is present and the index of its slot. -/
def each (f : α → Nat → β) (children : Children α) : List β :=
  (children.map f).filterMap id

def only (children : Children α) : Except ChildrenError α :=
  match children.toList with
  | [child] => .ok child
  | found => .error (.notExactlyOne found.length)

end Children

end FineGrain.Hook
