import FineGrain.World
/-!
Ownership. What its last owner gives up goes away, and with it gives up what it owns itself.
-/

namespace FineGrain

/-- One owner's part in something shared, or an effect, which has a single owner. -/
inductive Owned where
  | signal (signal : Nat)
  | memo (memo : Nat)
  | probe (probe : Nat)
  | effect (effect : NodeId)
deriving DecidableEq, Repr

namespace Dependency

def owned : Dependency → List Owned
  | .plain _ => []
  | .state s => [.signal s]
  | .memo m => [.memo m]
  | .probe p => [.probe p]

/-- What a dependency list owns. -/
def allOwned (l : List Dependency) : List Owned := l.flatMap owned

end Dependency

namespace World

/-- Take one more part in something shared. -/
def retain (w : World) : Owned → World
  | .signal s => { w with signals := w.signals.modify s fun x => { x with clones := x.clones + 1 } }
  | .memo m => { w with memos := w.memos.modify m fun x => { x with owners := x.owners + 1 } }
  | .probe p => { w with probes := w.probes.modify p fun x => { x with owners := x.owners + 1 } }
  | .effect _ => w

/-- Give up one clone of a signal. With the last one the signal leaves the graph. -/
def dropSignal (w : World) (s : Nat) : World :=
  match w.signals.get? s with
  | none => w
  | some x =>
      if x.clones ≤ 1 then
        { w with signals := w.signals.erase s, graph := w.graph.removeNode s }
      else { w with signals := w.signals.put s { x with clones := x.clones - 1 } }

/-- Give up one part in a memo; answers what the memo gives up in turn. -/
def dropMemo (w : World) (m : Nat) : List Owned × World :=
  match w.memos.get? m with
  | none => ([], w)
  | some x =>
      if x.owners ≤ 1 then
        (Dependency.allOwned x.dependencies ++ [.effect x.effect],
          { w with memos := w.memos.erase m })
      else ([], { w with memos := w.memos.put m { x with owners := x.owners - 1 } })

/-- Give up one part in a probe; answers what the probe gives up in turn. -/
def dropProbe (w : World) (p : Nat) : List Owned × World :=
  match w.probes.get? p with
  | none => ([], w)
  | some x =>
      if x.owners ≤ 1 then
        (Dependency.allOwned (x.dependencies.getD []), { w with probes := w.probes.erase p })
      else ([], { w with probes := w.probes.put p { x with owners := x.owners - 1 } })

/-- What the computation of an effect owns: a hook's effect owns the dependency list. -/
def computationOwned (w : World) : Computation → List Owned
  | .hook h => Dependency.allOwned (((w.hooks.get? h).bind (·.dependencies)).getD [])
  | _ => []

/-- Dispose an effect, unless it is disposed: it leaves the graph and never starts again. Answers
what it gives up. -/
def dropEffect (w : World) (e : NodeId) : List Owned × World :=
  match w.effects.get? e with
  | none => ([], w)
  | some x =>
      (w.computationOwned x.computation,
        { w with effects := w.effects.erase e, graph := w.graph.removeNode e })

/-- Give up one thing; answers what is given up in turn. -/
def dropOne (w : World) : Owned → List Owned × World
  | .signal s => ([], w.dropSignal s)
  | .memo m => w.dropMemo m
  | .probe p => w.dropProbe p
  | .effect e => w.dropEffect e

/-- Number of parts that the memos, probes and hooks of a world own. -/
def ownedCount (w : World) : Nat :=
  w.memos.entries.length + (w.memos.entries.flatMap fun e => e.2.dependencies).length +
    (w.probes.entries.flatMap fun e => e.2.dependencies.getD []).length +
    (w.hooks.entries.flatMap fun e => e.2.dependencies.getD []).length

/-- Give up things in order, and in front of the rest whatever each gives up in turn. -/
def giveUpSteps : Nat → List Owned → World → World
  | 0, _, w => w
  | _ + 1, [], w => w
  | n + 1, o :: rest, w =>
      let (more, w) := w.dropOne o
      giveUpSteps n (more ++ rest) w

/-- Give up things and all that goes away with them. Every memo, probe and effect goes away at most
once, so no more parts can be given up than there are. -/
def giveUp (w : World) (things : List Owned) : World :=
  giveUpSteps (things.length + w.ownedCount + 1) things w

end World

namespace Act

def retain (o : Owned) : Act Unit := modify (·.retain o)

def giveUp (things : List Owned) : Act Unit := modify (·.giveUp things)

end Act

end FineGrain
