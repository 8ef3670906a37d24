import FineGrain.World.Borrow
/-!
Subscribing to a dependency list: to what it names, and to what that was declared with in turn, each
wrapper once.
-/

namespace FineGrain

/-- What tells wrappers apart: two entries with the same key are the same wrapper. -/
inductive DependencyKey where
  | signal (signal : Nat)
  | memo (memo : Nat)
  | shared (key : Int)
deriving DecidableEq, Repr

namespace World

def keyOf (w : World) : Dependency → Option DependencyKey
  | .plain _ => none
  | .state s => some (.signal s)
  | .memo m => some (.memo m)
  | .probe p => (w.probes.get? p).map fun x => .shared x.key

def declared (w : World) : Dependency → List Dependency
  | .plain _ | .state _ => []
  | .memo m => ((w.memos.get? m).map (·.dependencies)).getD []
  | .probe p => ((w.probes.get? p).bind (·.dependencies)).getD []

/-- Number of dependencies that all wrappers were declared with. -/
def declaredCount (w : World) : Nat :=
  (w.memos.entries.flatMap fun e => e.2.dependencies).length +
    (w.probes.entries.flatMap fun e => e.2.dependencies.getD []).length

end World

namespace Act

/-- Subscribe to a wrapper alone. A memo and a callback are seen through what they were declared
with. -/
def trackOne : Dependency → Act Unit
  | .plain _ | .memo _ => return
  | .state s => do
      track s
      borrowing s fun _ => return
  | .probe p => do
      match (← get).probes.get? p with
      | some x => log ("track:" ++ x.name)
      | none => return

/-- Subscribe to a list, depth first, passing over the keys already seen. -/
def trackSteps : Nat → List DependencyKey → List Dependency → Act Unit
  | 0, _, _ => return
  | _ + 1, _, [] => return
  | n + 1, seen, d :: rest => do
      let w ← get
      match w.keyOf d with
      | none => trackSteps n seen rest
      | some key =>
          if seen.contains key then trackSteps n seen rest
          else
            trackOne d
            trackSteps n (key :: seen) (w.declared d ++ rest)

/-- Subscribe to a dependency list. A key is expanded at most once, so no more entries are looked at
than there are. -/
def trackAll (dependencies : List Dependency) : Act Unit := do
  let w ← get
  trackSteps (dependencies.length + w.declaredCount + 1) [] dependencies

end Act

end FineGrain
