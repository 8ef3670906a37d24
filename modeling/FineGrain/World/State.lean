import FineGrain.World.Effect
/-!
Coalesced writes. The first write after a commit queues one commit; the writes that follow compose on
the cached value, and the commit writes the signal once.
-/

namespace FineGrain.Act

/-- Compose a write on the pending value. The cache is empty while `next` is evaluated. -/
def write (s : Nat) (next : Value → Act Value) : Act Unit := do
  if !(← signal s).dirty then
    modifySignal s fun x => { x with dirty := true }
    let committed ← read s
    modifySignal s fun x => { x with cache := some committed }
    retain (.signal s)
    queueTask (.commit s)
  let cached := (← signal s).cache
  modifySignal s fun x => { x with cache := none }
  let current ← match cached with
    | some v => pure v
    | none => read s
  let v ← next current
  modifySignal s fun x => { x with cache := some v }

/-- Commit the pending value, and let go of the signal. -/
def commit (host : Host) (s : Nat) : Act Unit := do
  let cached := (← signal s).cache
  modifySignal s fun x => { x with cache := none, dirty := false }
  match cached with
  | some v => setSignal host s v
  | none => pure ()
  giveUp [.signal s]

/-- A new state: its getter and its setter each own the signal. -/
def newState (v : Value) : Act Nat := newSignal v 2

/-- A new reducer: the getter and the setter inside the dispatcher each own the signal. -/
def newReducer (v : Value) (reduce : Body) : Act (Nat × Nat) := do
  let s ← newSignal v 2
  let d ← fresh
  modify fun w => { w with dispatchers := w.dispatchers.put d ⟨s, reduce, 1⟩ }
  return (s, d)

/-- Apply an action to the pending state. -/
def dispatch (host : Host) (d : Nat) (action : Value) : Act Unit := do
  match (← get).dispatchers.get? d with
  | none => return
  | some x => write x.signal fun current => host.call x.reduce [current, action]

/-- Give up one owner's part in a dispatcher, and with the last one its setter. -/
def dropDispatcher (d : Nat) : Act Unit := do
  match (← get).dispatchers.get? d with
  | none => return
  | some x =>
      if x.owners ≤ 1 then
        modify fun w => { w with dispatchers := w.dispatchers.erase d }
        giveUp [.signal x.signal]
      else
        modify fun w =>
          { w with dispatchers := w.dispatchers.put d { x with owners := x.owners - 1 } }

end FineGrain.Act
