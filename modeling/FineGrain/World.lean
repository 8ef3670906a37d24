import FineGrain.Program.Expr
import FineGrain.Reactive.Graph
/-!
The state of a running program. Whatever lives has a number; what is shared counts its owners, and
what is borrowed counts its readers, so that a write in the middle of a borrow is noticed.
-/

namespace FineGrain

/-- A signal and, for a state, its coalescing cell.

* `clones`: how many owners it has; `readers`, `writing`: the borrows under way
* `dirty`: whether a commit is queued; `cache`: the value to commit -/
structure Signal where
  value : Value
  clones : Nat
  readers : Nat
  writing : Bool
  dirty : Bool
  cache : Option Value
deriving Repr, Inhabited

/-- What a dependency list holds: plain values, and states, memos and probes. -/
inductive Dependency where
  | plain (v : Value)
  | state (signal : Nat)
  | memo (memo : Nat)
  | probe (probe : Nat)
deriving Repr, Inhabited

/-- A value provided for a context. -/
structure Provider where
  context : NodeId
  value : Value
deriving Repr, Inhabited

/-- What an effect does when it runs: user code, the computation of a memo, or the tracking of a
hook's dependencies. -/
inductive Computation where
  | body (code : Body)
  | memo (memo : Nat)
  | hook (hook : Nat)
deriving Inhabited

/-- A live effect: it is disposed when it is no longer there. -/
structure Effect where
  computation : Computation
  timing : Timing
  providers : List Provider
  running : Bool
deriving Inhabited

/-- How the value of a memo is made: computed, or a function that never changes. -/
inductive Factory where
  | compute (body : Body)
  | function (body : Body)
deriving Inhabited

inductive Cached where
  | value (v : Value)
  | function (body : Body)
deriving Inhabited

/-- A memo. `bound` tells whether its creation is over; until then `cache` holds what its first run
answered. -/
structure Memo where
  factory : Factory
  cache : Option Cached
  bound : Bool
  dependencies : List Dependency
  effect : NodeId
  owners : Nat
  readers : Nat
deriving Inhabited

/-- A cleanup and the value that its run gets. -/
structure Cleanup where
  body : Body
  argument : Value
deriving Inhabited

/-- An effect hook. `dependencies` are what its effect tracks, if it has a list. -/
structure HookSlot where
  phase : Hook.Phase
  body : Body
  onCleanup : Option Body
  dependencies : Option (List Dependency)
  effect : NodeId
  cleanup : Option Cleanup
  providers : List Provider
  queued : Bool
  disposed : Bool
  running : Bool
deriving Inhabited

structure Ref where
  current : Option Value
  readers : Nat
deriving Repr, Inhabited

/-- The dispatch half of a reducer, with the setter it owns. -/
structure Dispatcher where
  signal : Nat
  reduce : Body
  owners : Nat
deriving Inhabited

/-- A wrapper that records when it is tracked. -/
structure Probe where
  name : String
  key : Int
  dependencies : Option (List Dependency)
  owners : Nat
deriving Repr, Inhabited

/-- What a name can stand for. -/
inductive Handle where
  | signal (signal : Nat)
  | signalPair (signal : Nat)
  | effect (effect : NodeId)
  | context (context : NodeId) (default : Value)
  | snapshot (providers : List Provider)
  | state (signal : Nat)
  | reducer (signal dispatcher : Nat)
  | memo (memo : Nat)
  | callback (memo : Nat)
  | hook (hook : Nat)
  | ref (ref : Nat)
  | probe (probe : Nat)
deriving Inhabited

/-- A handle, and how many hold it: its name and the operations under way on it. -/
structure Held where
  handle : Handle
  holders : Nat
deriving Inhabited

/-- Work for later: a flush of the deferred effects, the first run of an effect, the commit of a
state, a flush of the hook phases, or user code. -/
inductive Task where
  | flush
  | firstRun (effect : NodeId)
  | commit (signal : Nat)
  | phases
  | body (code : Body)
deriving Inhabited

/-- The state of a running program. `providers` are the visible ones, the innermost first. -/
structure World where
  graph : Graph
  tasks : List Task
  phases : Hook.PhaseQueue Nat
  providers : List Provider
  signals : Store Signal
  effects : Store Effect
  memos : Store Memo
  hooks : Store HookSlot
  refs : Store Ref
  dispatchers : Store Dispatcher
  probes : Store Probe
  handles : Store Held
  names : List (String × Nat)
  next : Nat
  log : List String
deriving Inhabited

namespace World

def empty : World :=
  ⟨.empty, [], .empty, [], .empty, .empty, .empty, .empty, .empty, .empty, .empty, .empty, [], 0, []⟩

end World

/-- Why an evaluation stops short: a borrow in conflict with another one, or the end of the
interpreter's patience. -/
inductive Abort where
  | conflict
  | exhausted
deriving DecidableEq, Repr

/-- Something that a program does to its world. What it has done stays done when it stops short. -/
abbrev Act := ExceptT Abort (StateM World)

/-- What runs user code. `bound` limits the loops that only the program can end. -/
structure Host where
  call : Body → List Value → Act Value
  bound : Nat

namespace Act

/-- Stop short over a borrow. -/
def conflict : Act α := throw .conflict

def exhausted : Act α := throw .exhausted

/-- A number that nothing has yet. -/
def fresh : Act Nat := do
  let w ← get
  set { w with next := w.next + 1 }
  return w.next

def log (line : String) : Act Unit := modify fun w => { w with log := w.log ++ [line] }

def onGraph (f : Graph → Graph) : Act Unit := modify fun w => { w with graph := f w.graph }

def queueTask (task : Task) : Act Unit := modify fun w => { w with tasks := w.tasks ++ [task] }

end Act

end FineGrain
