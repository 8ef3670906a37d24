import FineGrain.World.Memo
import FineGrain.World.Task
/-!
Names and handles. A handle lives as long as its name or an operation under way holds it; what lets go
of it last releases what the handle owns.
-/

namespace FineGrain.Act

def handle? (name : String) : Act (Option (Nat × Handle)) := do
  let w ← get
  return do
    let number ← w.names.lookup name
    let held ← w.handles.get? number
    return (number, held.handle)

/-- Release what a handle owns. A hook is disposed, which runs its cleanup. -/
def release (host : Host) : Handle → Act Unit
  | .signal s => giveUp [.signal s]
  | .signalPair s | .state s => giveUp [.signal s, .signal s]
  | .reducer s d => do
      giveUp [.signal s]
      dropDispatcher d
  | .effect e => disposeEffect e
  | .memo m | .callback m => giveUp [.memo m]
  | .hook h => disposeHook host h
  | .probe p => giveUp [.probe p]
  | .context .. | .snapshot _ | .ref _ => return

def hold (number : Nat) : Act Unit :=
  modify fun w =>
    { w with handles := w.handles.modify number fun x => { x with holders := x.holders + 1 } }

def letGo (host : Host) (number : Nat) : Act Unit := do
  match (← get).handles.get? number with
  | none => return
  | some x =>
      if x.holders ≤ 1 then
        modify fun w => { w with handles := w.handles.erase number }
        release host x.handle
      else
        modify fun w =>
          { w with handles := w.handles.put number { x with holders := x.holders - 1 } }

/-- Take the binding of a name away; answers what it was bound to. -/
def unbind (name : String) : Act (Option Nat) := do
  let w ← get
  set { w with names := w.names.filter (·.1 != name) }
  return w.names.lookup name

/-- Bind a name to a handle. What it was bound to before is let go of afterwards. -/
def bind (host : Host) (name : String) (handle : Handle) : Act Unit := do
  let number ← fresh
  let old ← unbind name
  modify fun w =>
    { w with
      handles := w.handles.put number ⟨handle, 1⟩
      names := (name, number) :: w.names }
  match old with
  | some number => letGo host number
  | none => return

/-- Unbind a name and let go of its handle; answers whether it was bound. -/
def dropName (host : Host) (name : String) : Act Bool := do
  match ← unbind name with
  | some number => do
      letGo host number
      return true
  | none => return false

/-- The dependency that an entry stands for, owned by the list it goes into. A name without a
wrapper behind it is a plain string. -/
def dependency : DependencyEntry → Act Dependency
  | .plain v => return .plain v
  | .named name => do
      let d : Dependency := match ← handle? name with
        | some (_, .state s) | some (_, .reducer s _) => .state s
        | some (_, .memo m) | some (_, .callback m) => .memo m
        | some (_, .probe p) => .probe p
        | _ => .plain (.string name)
      match d with
      | .plain _ => return d
      | .state s => retain (.signal s)
      | .memo m => retain (.memo m)
      | .probe p => retain (.probe p)
      return d

def dependencies : List DependencyEntry → Act (List Dependency)
  | [] => return []
  | entry :: rest => do
      let d ← dependency entry
      let ds ← dependencies rest
      return d :: ds

def giveUpDependencies (l : List Dependency) : Act Unit := giveUp (Dependency.allOwned l)

/-- The value of a dependency, read without subscribing; nothing for a function, and of the plain
values only integers. -/
def peekDependency : Dependency → Act Value
  | .plain (.integer n) => return .integer n
  | .plain _ => return .null
  | .state s => read s
  | .memo m => cachedValue m
  | .probe p => do return (((← get).probes.get? p).map fun x => .integer x.key).getD .null

/-- What two entries are: whether the first can be tracked, its value, and whether they are the same
wrapper. -/
def compareDependencies (a b : Dependency) : Act Value := do
  let v ← peekDependency a
  let w ← get
  let trackable := match a with
    | .plain _ => false
    | _ => true
  return .list [.boolean trackable, v, .boolean (w.keyOf a == w.keyOf b)]

end FineGrain.Act
