import FineGrain.World.Dependency
import FineGrain.World.Owned
/-!
Effects and the spreading of changes. An effect runs observed, so that what it reads is noted anew,
and under the providers that were visible where it was created. A change runs render effects at once
and has deferred effects wait for the next flush.
-/

namespace FineGrain.Act

def modifyMemo (m : Nat) (f : Memo → Memo) : Act Unit :=
  modify fun w => { w with memos := w.memos.modify m f }

def modifyHook (h : Nat) (f : HookSlot → HookSlot) : Act Unit :=
  modify fun w => { w with hooks := w.hooks.modify h f }

def modifyEffect (e : NodeId) (f : Effect → Effect) : Act Unit :=
  modify fun w => { w with effects := w.effects.modify e f }

/-- What the factory of a memo answers. -/
def produce (host : Host) : Factory → Act Cached
  | .compute body => do return .value (← host.call body [])
  | .function body => return .function body

/-- Keep what the factory of a memo has answered, unless the memo is gone by now. -/
def storeComputed (m : Nat) (next : Cached) : Act Unit := do
  match (← get).memos.get? m with
  | none => return
  | some x =>
      if x.bound && x.readers != 0 then conflict
      else modifyMemo m fun x => { x with cache := some next }

/-- Queue a job of a hook, and a flush of the phases if none is queued. -/
def scheduleJob (phase : Hook.Phase) (h : Nat) : Act Unit := do
  let (needed, phases) := (← get).phases.push phase h
  modify fun w => { w with phases := phases }
  if needed then queueTask .phases

/-- Track the dependencies of a hook and queue a job for it, if none is queued. -/
def trackHook (h : Nat) : Act Unit := do
  match (← get).hooks.get? h with
  | none => return
  | some x =>
      trackAll (x.dependencies.getD [])
      if !x.queued then
        modifyHook h fun x => { x with queued := true }
        scheduleJob x.phase h

def compute (host : Host) : Computation → Act Unit
  | .body code => do
      let _ ← host.call code []
  | .memo m => do
      match (← get).memos.get? m with
      | none => return
      | some x => storeComputed m (← produce host x.factory)
  | .hook h => trackHook h

/-- Run an effect, unless it is disposed or running already. -/
def runEffect (host : Host) (e : NodeId) : Act Unit := do
  match (← get).effects.get? e with
  | none => return
  | some x =>
      if x.running then return
      else
        modifyEffect e fun x => { x with running := true }
        onGraph fun g => (g.clearDependencies e).pushObserver e
        providing x.providers (compute host x.computation)
        onGraph (·.popObserver)
        modifyEffect e fun x => { x with running := false }

def runEffects (host : Host) : List NodeId → Act Unit
  | [] => return
  | e :: rest => do
      runEffect host e
      runEffects host rest

/-- Have a deferred effect wait for the next flush. -/
def schedule (e : NodeId) : Act Unit := do
  let (needed, graph) := (← get).graph.schedule e
  modify fun w => { w with graph := graph }
  if needed then queueTask .flush

/-- The render effects among some subscribers; the deferred ones are scheduled. -/
def sortOut : List NodeId → Act (List NodeId)
  | [] => return []
  | e :: rest => do
      match (← get).effects.get? e with
      | none => sortOut rest
      | some x =>
          match x.timing with
          | .render => return e :: (← sortOut rest)
          | .deferred => do
              schedule e
              sortOut rest

/-- Spread the change of a signal. Render effects run in order of creation, since a computation can
only read computations created before it. -/
def notify (host : Host) (s : NodeId) : Act Unit := do
  let render ← sortOut ((← get).graph.subscribers s)
  runEffects host (render.mergeSort (· ≤ ·))

/-- Run the deferred effects that wait. -/
def flush (host : Host) : Act Unit := do
  let (waiting, graph) := (← get).graph.takePending
  modify fun w => { w with graph := graph }
  runEffects host waiting

/-- A new effect under the visible providers. A render effect runs at once, a deferred one in a task
of its own. -/
def newEffect (host : Host) (e : NodeId) (timing : Timing) (computation : Computation) :
    Act Unit := do
  modify fun w =>
    { w with effects := w.effects.put e ⟨computation, timing, w.providers, false⟩ }
  match timing with
  | .render => runEffect host e
  | .deferred => queueTask (.firstRun e)

def disposeEffect (e : NodeId) : Act Unit := giveUp [.effect e]

/-- Write a signal and spread the change. -/
def setSignal (host : Host) (s : Nat) (v : Value) : Act Unit := do
  requireUnborrowed s
  modifySignal s fun x => { x with value := v }
  notify host s

/-- Change a signal in place and spread the change; it cannot be read meanwhile. -/
def updateSignal (host : Host) (s : Nat) (next : Value → Act Value) : Act Unit := do
  requireUnborrowed s
  let v ← read s
  modifySignal s fun x => { x with writing := true }
  let v ← next v
  modifySignal s fun x => { x with value := v, writing := false }
  notify host s

end FineGrain.Act
