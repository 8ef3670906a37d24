import FineGrain.Hook.PhaseQueue
import FineGrain.Program.Value
/-!
Programs over the reactive library. What they create goes by name; a body is an expression that is
evaluated later, perhaps often, each time with arguments of its own.
-/

namespace FineGrain

/-- When an effect runs: inside the write that invalidates it, or in the next flush. -/
inductive Timing where
  | render | deferred
deriving DecidableEq, Repr, Inhabited

/-- An entry of a dependency list: a plain value, or what goes by a name. -/
inductive DependencyEntry where
  | plain (v : Value)
  | named (name : String)
deriving Repr, Inhabited

inductive Arithmetic where
  | add | sub | mul
deriving DecidableEq, Repr

mutual

/-- An expression.

* `argument`: an argument of the innermost body
* `sequence`, `list`, `concat`, `log`: evaluate all; answer the last value, the list, the joined
  texts; record the joined texts
* `create`: make something and bind the name to it; `drop`: unbind the name
* `untrack`: evaluate without subscribing; `queue`: evaluate in a task of its own; `drain`: run the
  queued tasks; `pendingTasks`: count them; `observing`: is an effect running
* `trackAll`: subscribe to a dependency list; `compare`: what two entries are
* `on`: an operation on what goes by a name; `word` is how the operation is called -/
inductive Expr where
  | value (v : Value)
  | argument (index : Nat)
  | sequence (all : List Expr)
  | list (items : List Expr)
  | concat (parts : List Expr)
  | log (parts : List Expr)
  | arithmetic (op : Arithmetic) (a b : Expr)
  | equal (a b : Expr)
  | less (a b : Expr)
  | branch (test yes no : Expr)
  | create (name : String) (made : Creation)
  | drop (name : String)
  | untrack (e : Expr)
  | queue (body : Expr)
  | drain
  | pendingTasks
  | observing
  | trackAll (entries : List DependencyEntry)
  | compare (a b : DependencyEntry)
  | on (name word : String) (op : Operation)

/-- What a program can make. -/
inductive Creation where
  | signal (initial : Expr)
  | signalPair (initial : Expr)
  | effect (timing : Timing) (body : Expr)
  | context (default : Expr)
  | snapshot
  | state (initial : Expr)
  | reducer (initial : Expr) (reduce : Expr)
  | reducerFrom (seed : Expr) (init reduce : Expr)
  | memo (entries : List DependencyEntry) (compute : Expr)
  | callback (entries : List DependencyEntry) (body : Expr)
  | hook (phase : Hook.Phase) (entries : Option (List DependencyEntry)) (body : Expr)
      (cleanup : Option Expr)
  | ref (initial : Expr)
  | probe (key : Int)

/-- What can be done with it. -/
inductive Operation where
  | get
  | peek
  | borrow (body : Option Expr)
  | borrowUntracked (body : Option Expr)
  | set (e : Expr)
  | update (body : Expr)
  | pending
  | dispatch (action : Expr)
  | display
  | json
  | dependencyCount
  | debug
  | subscriberCount
  | hasNode
  | call (argument : Expr)
  | callUntracked (argument : Expr)
  | dispose
  | isDisposed
  | phase
  | provide (e inside : Expr)
  | useContext
  | tryContext
  | defaultValue
  | consumer (body : Option Expr)
  | runIn (inside : Expr)
  | current
  | take
  | setCurrent (e : Expr)
  | attach (e : Expr)
  | declareDependencies (entries : List DependencyEntry)
  | clone (name : String)
  | unknown

end

instance : Inhabited Expr := ⟨.value .null⟩

instance : Inhabited Operation := ⟨.unknown⟩

/-- User code that runs later. -/
abbrev Body := Expr

end FineGrain
