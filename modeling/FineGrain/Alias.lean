/-!
Alias frames: the local names under which one unit imports the framework. Frames form a stack, one
per unit in flight; lookups consult the top frame only.
-/

namespace FineGrain

/-- What a local name can stand for: the whole framework (default and namespace imports), the
element factory, an effect hook or the fragment tag. -/
inductive AliasRole where
  | root
  | factory
  | effect
  | fragment
deriving DecidableEq, Repr

/-- The local names recorded for one unit, and whether it imports the framework at all. -/
structure AliasFrame where
  aliases : List (AliasRole × String)
  imported : Bool
deriving DecidableEq, Repr, Inhabited

namespace AliasFrame

def empty : AliasFrame := ⟨[], false⟩

def has (frame : AliasFrame) (role : AliasRole) (name : String) : Bool :=
  frame.aliases.contains (role, name)

def add (frame : AliasFrame) (role : AliasRole) (name : String) : AliasFrame :=
  if frame.has role name then frame
  else { frame with aliases := frame.aliases ++ [(role, name)] }

/-- Note that the unit imports the framework. -/
def markImported (frame : AliasFrame) : AliasFrame := { frame with imported := true }

/-- Whether `name` is recorded in any role. -/
def isAlias (frame : AliasFrame) (name : String) : Bool :=
  frame.aliases.any (·.2 == name)

/-- Number of recorded aliases, a name counting once for each of its roles. -/
def count (frame : AliasFrame) : Nat := frame.aliases.length

end AliasFrame

/-- Alias frames of the units in flight, the current one first. -/
structure AliasStack where
  frames : List AliasFrame
deriving DecidableEq, Repr, Inhabited

namespace AliasStack

def empty : AliasStack := ⟨[]⟩

def depth (stack : AliasStack) : Nat := stack.frames.length

/-- The frame that lookups consult. -/
def top? (stack : AliasStack) : Option AliasFrame := stack.frames.head?

/-- Run `unit` on a fresh frame; the frame is gone afterwards, whatever the unit answers. -/
def within (stack : AliasStack) (unit : AliasFrame → α × AliasFrame) : α × AliasStack :=
  let entered : AliasStack := ⟨AliasFrame.empty :: stack.frames⟩
  match entered.top? with
  | some frame => ((unit frame).1, ⟨entered.frames.tail⟩)
  | none => ((unit AliasFrame.empty).1, stack)

end AliasStack

end FineGrain
