import FineGrain.World.Effect
/-!
Effect hooks. A deferred effect tracks the dependency list; when it runs, it does not run the body
but queues a job for it, and the jobs run in the order of their phases. A cleanup runs before the
next run of the body or when the hook is disposed.
-/

namespace FineGrain.Act

def newHook (host : Host) (phase : Hook.Phase) (body : Body) (onCleanup : Option Body)
    (dependencies : Option (List Dependency)) : Act Nat := do
  let h ← fresh
  let e ← fresh
  modify fun w =>
    { w with
      hooks := w.hooks.put h
        ⟨phase, body, onCleanup, dependencies, e, none, w.providers, false, false, false⟩ }
  newEffect host e .deferred (.hook h)
  return h

def runCleanup (host : Host) (h : Nat) : Act Unit := do
  match ((← get).hooks.get? h).bind (·.cleanup) with
  | none => return
  | some c => do
      modifyHook h fun x => { x with cleanup := none }
      let _ ← host.call c.body [c.argument]

/-- The cleanup that a run of the body answers: it needs a body of its own and a value that counts
as true. -/
def answered (onCleanup : Option Body) (v : Value) : Option Cleanup :=
  match onCleanup with
  | some body => if v.isTruthy then some ⟨body, v⟩ else none
  | none => none

/-- Run the body of a hook, unless it is running already, and keep the cleanup it answers. -/
def runBody (host : Host) (h : Nat) : Act Unit := do
  match (← get).hooks.get? h with
  | none => return
  | some x =>
      if x.running then return
      else
        modifyHook h fun x => { x with running := true }
        let v ← providing x.providers (host.call x.body [])
        modifyHook h fun y =>
          { y with running := false, cleanup := answered x.onCleanup v }

def runHook (host : Host) (h : Nat) : Act Unit := do
  modifyHook h fun x => { x with queued := false }
  match (← get).hooks.get? h with
  | none => return
  | some x =>
      if x.disposed then return
      else
        runCleanup host h
        runBody host h

/-- Dispose a hook: it stops tracking, a job that is queued does nothing, and its cleanup runs. -/
def disposeHook (host : Host) (h : Nat) : Act Unit := do
  match (← get).hooks.get? h with
  | none => return
  | some x =>
      if x.disposed then return
      else
        modifyHook h fun x => { x with disposed := true }
        disposeEffect x.effect
        runCleanup host h

/-- Run the jobs of all phases until none is left. -/
def runJobs (host : Host) : Nat → Act Unit
  | 0 => exhausted
  | n + 1 => do
      let (job, phases) := (← get).phases.pop
      modify fun w => { w with phases := phases }
      match job with
      | none => return
      | some h => do
          runHook host h
          runJobs host n

end FineGrain.Act
