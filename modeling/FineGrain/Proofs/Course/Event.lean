import FineGrain.Proofs.World.Pending
import FineGrain.Program.Eval
/-!
The elementary steps of a run. Each of them has an effect on the world, and some of them open or close
something that is under way: a run of an effect, of a factory or of a task, an evaluation that reads
untracked, a write whose value is still being worked out.
-/

namespace FineGrain

open Act

/-- A signal of its own, or one that belongs to a state or a reducer. -/
inductive Kind where
  | plain | state
deriving DecidableEq, Repr

/-- A write to a state; `depth` tells how deep evaluations may be nested in it. -/
inductive Write where
  | set (v : Value)
  | update (depth : Nat) (body : Body)
  | dispatch (depth : Nat) (reduce : Body) (action : Value)

/-- How a write makes the pending value out of the one before. -/
def Write.next : Write → Value → Act Value
  | .set v, _ => pure v
  | .update depth body, current => (Host.ofDepth depth).call body [current]
  | .dispatch depth reduce action, current => (Host.ofDepth depth).call reduce [current, action]

/-- What is under way, with what is put back at its end. `start` is the world in which the code starts
whose end is awaited.

* `updating`: a plain signal is changed in place
* `composing`: the next value of a state is worked out of `current`
* `draining`: the task queue is worked off; so many tasks are done -/
inductive Frame where
  | effect (e : NodeId) (providers : List Provider) (depth : Nat) (computation : Computation)
      (start : World)
  | untracked (observers : List NodeId)
  | providing (providers : List Provider)
  | updating (s : Nat) (depth : Nat) (body : Body) (start : World)
  | composing (s : Nat) (write : Write) (current : Value) (start : World)
  | factory (m : Nat) (start : World)
  | draining (count : Nat) (start : World)
  | task (t : Task) (start : World)
  | job (h : Nat) (start : World)
  | cleanup (h : Nat) (c : Cleanup) (start : World)
  | hookBody (h : Nat) (providers : List Provider) (start : World)

/-- An elementary step.

* `aside`: something that concerns neither signals, effects, memos and hooks nor the queues
* `tracked`: a signal is read for whoever observes it
* `marked`: the first write after a commit queues the next one
* `committed`, `lapsed`, `refused`: the next task is a commit; it writes the pending value, finds none,
  or finds the signal borrowed
* `recomputing`, `recomputed`: the factory runs once more because its first run has left nothing -/
inductive Event where
  | aside (w : World)
  | tracked (s : Nat) (v : Value)
  | hidden (observers : List NodeId)
  | shown (observers : List NodeId)
  | provided (providers before : List Provider)
  | withdrawn (providers : List Provider)
  | effectMade (e : NodeId) (timing : Timing) (body : Body)
  | started (e : NodeId) (depth : Nat) (providers before : List Provider)
  | finished (e : NodeId) (providers : List Provider)
  | skipped (e : NodeId)
  | scheduled (e : NodeId)
  | flushed
  | effectGone (e : NodeId)
  | signalMade (s : Nat) (kind : Kind) (v : Value) (clones : Nat)
  | assigned (s : Nat) (v : Value)
  | updating (s : Nat) (depth : Nat) (body : Body)
  | updated (s : Nat) (v : Value)
  | signalGone (s : Nat)
  | composing (s : Nat) (write : Write) (first : Bool) (current : Value)
  | composed (s : Nat) (write : Write) (start : World) (v : Value)
  | committed (s : Nat) (v : Value)
  | lapsed (s : Nat)
  | refused (s : Nat)
  | dispatcherMade (d s : Nat) (reduce : Body)
  | memoMade (m : Nat) (factory : Factory) (dependencies : List Dependency)
  | computing (m : Nat)
  | computed (m : Nat) (c : Cached)
  | recomputing (m : Nat)
  | recomputed (m : Nat) (c : Cached)
  | memoBound (m : Nat) (c : Cached)
  | memoGone (m : Nat)
  | hookMade (h : Nat) (phase : Hook.Phase) (body : Body) (onCleanup : Option Body)
      (dependencies : Option (List Dependency))
  | jobQueued (h : Nat) (phase : Hook.Phase)
  | jobBegun (h : Nat)
  | jobDone (h : Nat)
  | phasesOver
  | cleanupBegun (h : Nat) (c : Cleanup)
  | cleanupEnded (h : Nat)
  | bodyBegun (h : Nat) (providers before : List Provider)
  | bodyEnded (h : Nat) (providers : List Provider) (c : Option Cleanup)
  | bodySkipped (h : Nat)
  | hookDisposed (h : Nat)
  | queued (code : Body)
  | firstRunQueued (e : NodeId)
  | taskBegun (t : Task)
  | taskDone (t : Task)
  | draining
  | drained (count : Nat)
  | bound (number : Nat) (name : String) (handle : Handle)

/-- A task is done: the drain that has run it counts it. -/
def Frame.count : List Frame → List Frame
  | .draining n start :: rest => .draining (n + 1) start :: rest
  | frames => frames

namespace Event

def world : Event → World → World
  | aside w, _ => w
  | tracked s _, w => { w with graph := w.graph.track s }
  | hidden _, w => { w with graph := w.graph.hideObservers }
  | shown observers, w => { w with graph := w.graph.restoreObservers observers }
  | provided providers _, w | withdrawn providers, w => { w with providers := providers }
  | effectMade e timing body, w =>
      { w with
        next := w.next + 1
        effects := w.effects.put e ⟨.body body, timing, w.providers, false⟩ }
  | started e _ providers _, w => w.starting e providers
  | finished e providers, w =>
      { w with
        graph := w.graph.popObserver
        effects := w.effects.modify e fun x => { x with running := false }
        providers := providers }
  | scheduled e, w => w.awaiting [e]
  | flushed, w => { w with graph := w.graph.takePending.2 }
  | effectGone e, w => { w with effects := w.effects.erase e, graph := w.graph.removeNode e }
  | signalMade s _ v clones, w =>
      { w with
        next := w.next + 1
        signals := w.signals.put s ⟨v, clones, 0, false, false, none⟩ }
  | assigned s v, w => { w with signals := w.signals.modify s fun x => { x with value := v } }
  | updating s _ _, w => { w with signals := w.signals.modify s fun x => { x with writing := true } }
  | updated s v, w =>
      { w with signals := w.signals.modify s fun x => { x with value := v, writing := false } }
  | signalGone s, w => { w with signals := w.signals.erase s, graph := w.graph.removeNode s }
  | composing s _ _ _, w => w.opened s ((w.signals.get? s).getD default)
  | composed s _ _ v, w => { w with signals := w.signals.modify s fun x => { x with cache := some v } }
  | committed s v, w => { w.committing s v with tasks := w.tasks.tail }
  | lapsed s, w | refused s, w =>
      { w with
        tasks := w.tasks.tail
        signals := w.signals.modify s fun x => { x with cache := none, dirty := false } }
  | dispatcherMade d s reduce, w =>
      { w with next := w.next + 1, dispatchers := w.dispatchers.put d ⟨s, reduce, 1⟩ }
  | memoMade m factory dependencies, w =>
      { w with
        next := w.next + 2
        memos := w.memos.put m ⟨factory, none, false, dependencies, w.next + 1, 1, 0⟩
        effects := w.effects.put (w.next + 1) ⟨.memo m, .render, w.providers, false⟩ }
  | computed m c, w => { w with memos := w.memos.modify m fun x => { x with cache := some c } }
  | memoBound m c, w =>
      { w with memos := w.memos.modify m fun x => { x with cache := some c, bound := true } }
  | memoGone m, w => { w with memos := w.memos.erase m }
  | hookMade h phase body onCleanup dependencies, w =>
      { w with
        next := w.next + 2
        hooks := w.hooks.put h
          ⟨phase, body, onCleanup, dependencies, w.next + 1, none, w.providers, false, false, false⟩
        effects := w.effects.put (w.next + 1) ⟨.hook h, .deferred, w.providers, false⟩ }
  | jobQueued h phase, w =>
      { w with
        hooks := w.hooks.modify h fun x => { x with queued := true }
        phases := (w.phases.push phase h).2
        tasks := if (w.phases.push phase h).1 then w.tasks ++ [.phases] else w.tasks }
  | jobBegun h, w =>
      { w with
        phases := w.phases.pop.2
        hooks := w.hooks.modify h fun x => { x with queued := false } }
  | phasesOver, w => { w with phases := w.phases.pop.2 }
  | cleanupBegun h _, w => { w with hooks := w.hooks.modify h fun x => { x with cleanup := none } }
  | bodyBegun h providers _, w =>
      { w with
        hooks := w.hooks.modify h fun x => { x with running := true }
        providers := providers }
  | bodyEnded h providers c, w =>
      { w with
        hooks := w.hooks.modify h fun x => { x with running := false, cleanup := c }
        providers := providers }
  | hookDisposed h, w => { w with hooks := w.hooks.modify h fun x => { x with disposed := true } }
  | queued code, w => { w with tasks := w.tasks ++ [.body code] }
  | firstRunQueued e, w => { w with tasks := w.tasks ++ [.firstRun e] }
  | taskBegun _, w => { w with tasks := w.tasks.tail }
  | bound number name handle, w =>
      { w with
        next := w.next + 1
        handles := w.handles.put number ⟨handle, 1⟩
        names := (name, number) :: w.names.filter (·.1 != name) }
  | _, w => w

/-- What is under way after a step from the world `w` to the world `w'`, the innermost first. A commit
starts when it is taken from the queue, and the job of a hook when it is taken from its lane; what else
their first steps do is done by them. -/
def frames (w w' : World) : Event → List Frame → List Frame
  | hidden observers, fs => .untracked observers :: fs
  | provided _ before, fs => .providing before :: fs
  | started e depth _ before, fs =>
      .effect e before depth ((w'.effects.get? e).getD default).computation w' :: fs
  | updating s depth body, fs => .updating s depth body w' :: fs
  | composing s write _ current, fs => .composing s write current w' :: fs
  | computing m, fs | recomputing m, fs => .factory m w' :: fs
  | jobBegun h, fs => .job h { w with phases := w.phases.pop.2 } :: fs
  | cleanupBegun h c, fs => .cleanup h c w' :: fs
  | bodyBegun h _ before, fs => .hookBody h before w' :: fs
  | taskBegun t, fs => .task t w' :: fs
  | draining, fs => .draining 0 w' :: fs
  | committed s _, fs | lapsed s, fs | refused s, fs =>
      .task (.commit s) { w with tasks := w.tasks.tail } :: fs
  | taskDone _, fs => Frame.count fs.tail
  | shown _, fs | withdrawn _, fs | finished _ _, fs | updated _ _, fs | composed _ _ _ _, fs
  | computed _ _, fs | recomputed _ _, fs | jobDone _, fs | cleanupEnded _, fs | bodyEnded _ _ _, fs
  | drained _, fs => fs.tail
  | _, fs => fs

end Event

end FineGrain
