import FineGrain.World
/-!
Reading and borrowing signals. A borrow under way forbids writing, a write under way forbids both.
-/

namespace FineGrain.Act

def signal (s : Nat) : Act Signal := do return ((← get).signals.get? s).getD default

def modifySignal (s : Nat) (f : Signal → Signal) : Act Unit :=
  modify fun w => { w with signals := w.signals.modify s f }

/-- Subscribe the running effect to a signal. -/
def track (s : Nat) : Act Unit := onGraph (·.track s)

def read (s : Nat) : Act Value := do
  let x ← signal s
  if x.writing then conflict else return x.value

/-- Go on with the value of a signal while it is borrowed. -/
def borrowing (s : Nat) (inside : Value → Act α) : Act α := do
  let v ← read s
  modifySignal s fun x => { x with readers := x.readers + 1 }
  let a ← inside v
  modifySignal s fun x => { x with readers := x.readers - 1 }
  return a

/-- Refuse to write while the signal is borrowed. -/
def requireUnborrowed (s : Nat) : Act Unit := do
  let x ← signal s
  if x.writing || x.readers != 0 then conflict

def newSignal (v : Value) (clones : Nat) : Act Nat := do
  let s ← fresh
  modify fun w => { w with signals := w.signals.put s ⟨v, clones, 0, false, false, none⟩ }
  return s

/-- Evaluate without subscribing the running effects to anything. -/
def untracked (inside : Act α) : Act α := do
  let observers := (← get).graph.observers
  onGraph (·.hideObservers)
  let a ← inside
  onGraph (·.restoreObservers observers)
  return a

/-- Go on with exactly the given providers visible. -/
def providing (providers : List Provider) (inside : Act α) : Act α := do
  let saved := (← get).providers
  modify fun w => { w with providers := providers }
  let a ← inside
  modify fun w => { w with providers := saved }
  return a

def provided? (context : NodeId) : Act (Option Value) := do
  return ((← get).providers.find? (·.context == context)).map (·.value)

end FineGrain.Act
