import FineGrain.Lexical.Event
/-!
Free variables of a function literal. A name is resolved once the whole literal has been passed
over, so a declaration counts for the scope it belongs to wherever it is written.
-/

namespace FineGrain.Lexical

structure OpenScope where
  number : Nat
  isFunction : Bool
deriving DecidableEq, Repr

/-- A name as used in a scope: the numbers of the scopes around it, innermost first, and the offset
of a reference. -/
structure Use where
  name : String
  scopes : List Nat
  start : Nat
deriving DecidableEq, Repr

/-- What has been gathered.

* `stack`: the open scopes, innermost first; `count`: how many scopes have been opened
* `hoisting`: whether declarations go to the enclosing function
* `declared`: each declared name with the number of its scope
* `references`, `assigned`: the names read and assigned to, in order -/
structure Resolution where
  stack : List OpenScope
  count : Nat
  hoisting : Bool
  declared : List (Nat × String)
  references : List Use
  assigned : List Use
deriving DecidableEq, Repr

namespace Resolution

/-- The scope of the literal itself is open and can not be left. -/
def start : Resolution := ⟨[⟨0, true⟩], 1, false, [], [], []⟩

/-- The numbers of the open scopes. -/
def path (r : Resolution) : List Nat := r.stack.map (·.number)

/-- The number of the scope that a declaration belongs to. -/
def home (r : Resolution) : Nat :=
  match if r.hoisting then r.stack.find? (·.isFunction) else r.stack.head? with
  | some scope => scope.number
  | none => 0

def step (r : Resolution) : Event → Resolution
  | .enter isFunction =>
      { r with stack := ⟨r.count, isFunction⟩ :: r.stack, count := r.count + 1 }
  | .leave =>
      match r.stack with
      | _ :: outer :: rest => { r with stack := outer :: rest }
      | _ => r
  | .hoisting on => { r with hoisting := on }
  | .declare name => { r with declared := (r.home, name) :: r.declared }
  | .reference name start => { r with references := r.references ++ [⟨name, r.path, start⟩] }
  | .assign name => { r with assigned := r.assigned ++ [⟨name, r.path, 0⟩] }

/-- Whether a scope around the use declares the name. -/
def isLocal (r : Resolution) (u : Use) : Bool :=
  u.scopes.any fun number => r.declared.contains (number, u.name)

/-- The names whose outer binding is assigned to. -/
def assignedOuter (r : Resolution) : List String :=
  (r.assigned.filter fun u => !r.isLocal u).map (·.name)

/-- The references that read an outer binding nothing inside assigns to. -/
def outerReferences (r : Resolution) : List Use :=
  let assigned := r.assignedOuter
  r.references.filter fun u => !assigned.contains u.name && !r.isLocal u

end Resolution

/-- A name that a literal reads from outside, and the offsets at which it does. -/
structure FreeVariable where
  name : String
  starts : List Nat
deriving DecidableEq, Repr

/-- Add one reference: to the variable of its name, or as a new variable at the end. -/
def FreeVariable.gather : List FreeVariable → Use → List FreeVariable
  | [], u => [⟨u.name, [u.start]⟩]
  | v :: rest, u =>
      if v.name == u.name then { v with starts := v.starts ++ [u.start] } :: rest
      else v :: gather rest u

def neverFree : List String := ["undefined", "arguments"]

/-- What is known about names behind some events. -/
def resolve (all : List Event) : Resolution := all.foldl Resolution.step .start

/-- The free variables of a function literal, in the order of their first free references. -/
def freeVariables (literal : Grammar.Node) : List FreeVariable :=
  let uses := (resolve (literalEvents literal)).outerReferences
  (uses.filter fun u => !neverFree.contains u.name).foldl FreeVariable.gather []

end FineGrain.Lexical
