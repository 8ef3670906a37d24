import FineGrain.World.Effect
/-!
Memos: a value kept up to date by a render effect. Whoever reads it subscribes to what the memo was
declared with, whatever its factory reads.
-/

namespace FineGrain.Act

def memo (m : Nat) : Act Memo := do return ((← get).memos.get? m).getD default

/-- Give a memo its first value, which ends its creation. -/
def bindMemo (host : Host) (m : Nat) : Act Unit := do
  let x ← memo m
  let first ← match x.cache with
    | some v => pure v
    | none => untracked (produce host x.factory)
  modifyMemo m fun x => { x with cache := some first, bound := true }

/-- A new memo, declared with a list of dependencies. -/
def newMemo (host : Host) (factory : Factory) (dependencies : List Dependency) : Act Nat := do
  let m ← fresh
  let e ← fresh
  modify fun w =>
    { w with memos := w.memos.put m ⟨factory, none, false, dependencies, e, 1, 0⟩ }
  newEffect host e .render (.memo m)
  bindMemo host m
  return m

def cachedValue (m : Nat) : Act Value := do
  match (← memo m).cache with
  | some (.value v) => return v
  | _ => return .null

/-- Subscribe to what a memo was declared with. -/
def trackMemo (m : Nat) : Act Unit := do trackAll (← memo m).dependencies

/-- Go on with the value of a memo while it is borrowed. -/
def borrowingMemo (m : Nat) (inside : Value → Act α) : Act α := do
  trackMemo m
  let v ← cachedValue m
  modifyMemo m fun x => { x with readers := x.readers + 1 }
  let a ← inside v
  modifyMemo m fun x => { x with readers := x.readers - 1 }
  return a

/-- Call the function that a callback holds. -/
def callCached (host : Host) (m : Nat) (argument : Value) : Act Value := do
  match (← memo m).cache with
  | some (.function body) => host.call body [argument]
  | _ => return .null

end FineGrain.Act
