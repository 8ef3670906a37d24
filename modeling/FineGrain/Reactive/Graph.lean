import FineGrain.Reactive.Store
/-!
The dependency graph: who reads whom, which computations are being observed, and which deferred
effects wait for the next flush.
-/

namespace FineGrain

/-- Signals, effects and contexts are known by number, in order of creation. -/
abbrev NodeId := Nat

/-- The edges at a node: who reads it, and what it reads, each in order of first reading. -/
structure Edges where
  subscribers : List NodeId
  dependencies : List NodeId
deriving DecidableEq, Repr, Inhabited

/-- The graph and what goes with it.

* `observers`: the effects that are running, the innermost first
* `pending`: the deferred effects that wait for a flush, in order of invalidation
* `flushQueued`: whether a flush has been asked for and not begun -/
structure Graph where
  observers : List NodeId
  nodes : Store Edges
  pending : List NodeId
  flushQueued : Bool
deriving DecidableEq, Repr, Inhabited

namespace Graph

def empty : Graph := ⟨[], .empty, [], false⟩

/-- Add a number to a list unless it is in it. -/
def addOnce (n : NodeId) (l : List NodeId) : List NodeId := if l.contains n then l else l ++ [n]

def observer? (g : Graph) : Option NodeId := g.observers.head?

def pushObserver (g : Graph) (n : NodeId) : Graph := { g with observers := n :: g.observers }

def popObserver (g : Graph) : Graph := { g with observers := g.observers.tail }

/-- Hide the observers, as long as something runs untracked. -/
def hideObservers (g : Graph) : Graph := { g with observers := [] }

def restoreObservers (g : Graph) (observers : List NodeId) : Graph :=
  { g with observers := observers }

/-- Note that the innermost observer reads a signal; without an observer nothing is noted. -/
def track (g : Graph) (signal : NodeId) : Graph :=
  match g.observer? with
  | none => g
  | some observer =>
      let nodes := g.nodes.update signal fun e =>
        { e with subscribers := addOnce observer e.subscribers }
      let nodes := nodes.update observer fun e =>
        { e with dependencies := addOnce signal e.dependencies }
      { g with nodes := nodes }

/-- The nodes without `n` among the subscribers of `sources`. -/
def unsubscribe (n : NodeId) (nodes : Store Edges) (sources : List NodeId) : Store Edges :=
  sources.foldl (fun nodes source =>
    nodes.modify source fun e => { e with subscribers := e.subscribers.filter (· != n) }) nodes

/-- The nodes without `n` among the dependencies of `readers`. -/
def undepend (n : NodeId) (nodes : Store Edges) (readers : List NodeId) : Store Edges :=
  readers.foldl (fun nodes reader =>
    nodes.modify reader fun e => { e with dependencies := e.dependencies.filter (· != n) }) nodes

def clearDependencies (g : Graph) (n : NodeId) : Graph :=
  match g.nodes.get? n with
  | none => g
  | some e =>
      let nodes := g.nodes.put n { e with dependencies := [] }
      { g with nodes := unsubscribe n nodes e.dependencies }

def removeNode (g : Graph) (n : NodeId) : Graph :=
  let g := g.clearDependencies n
  match g.nodes.get? n with
  | none => g
  | some e => { g with nodes := undepend n (g.nodes.erase n) e.subscribers }

def hasNode (g : Graph) (n : NodeId) : Bool := g.nodes.contains n

def subscribers (g : Graph) (n : NodeId) : List NodeId :=
  ((g.nodes.get? n).map (·.subscribers)).getD []

/-- Have an effect wait for the next flush. Answers whether a flush has to be queued for it. -/
def schedule (g : Graph) (n : NodeId) : Bool × Graph :=
  (!g.flushQueued, { g with pending := addOnce n g.pending, flushQueued := true })

/-- Begin a flush: take the waiting effects. -/
def takePending (g : Graph) : List NodeId × Graph :=
  (g.pending, { g with pending := [], flushQueued := false })

end Graph

end FineGrain
