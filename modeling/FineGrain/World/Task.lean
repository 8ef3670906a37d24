import FineGrain.World.EffectHook
import FineGrain.World.State
/-!
Microtasks. They run in the order in which they were queued, until the queue is empty.
-/

namespace FineGrain.Act

def runTask (host : Host) : Task → Act Unit
  | .flush => flush host
  | .firstRun e => runEffect host e
  | .commit s => commit host s
  | .phases => runJobs host host.bound
  | .body code => do
      let _ ← host.call code []

/-- Run queued tasks until none is left; answers how many this call has run on top of `count`. -/
def drainSteps (host : Host) : Nat → Nat → Act Nat
  | 0, _ => exhausted
  | n + 1, count => do
      match (← get).tasks with
      | [] => return count
      | task :: rest => do
          modify fun w => { w with tasks := rest }
          runTask host task
          drainSteps host n (count + 1)

def drain (host : Host) : Act Nat := drainSteps host host.bound 0

end FineGrain.Act
