import FineGrain.Program.Handle
/-!
Operations on handles. Each kind of handle answers its own operations; the others it lacks.
-/

namespace FineGrain.Act

/-- The text of a fixed form around some parts. -/
def form (name : String) (fields : List (String × String)) : String :=
  name ++ " \x7b " ++ ", ".intercalate (fields.map fun (field, text) => field ++ ": " ++ text) ++
    " \x7d"

def phaseName : Hook.Phase → String
  | .insertion => "Insertion"
  | .layout => "Layout"
  | .passive => "Passive"

def truthText (b : Bool) : String := if b then "true" else "false"

/-- What goes on with a value: the body if there is one, or the value itself. -/
def inside (host : Host) (body : Option Body) (v : Value) : Act Value :=
  match body with
  | some body => host.call body [v]
  | none => return v

/-- Do something that answers nothing. -/
def quietly (act : Act Unit) : Act Value := do
  act
  return .null

/-- What signals, states and reducers have in common. -/
def readOperation? (host : Host) (s : Nat) : Operation → Option (Act Value)
  | .get => some do
      track s
      read s
  | .peek => some (read s)
  | .borrow body => some do
      track s
      borrowing s (inside host body)
  | .subscriberCount => some do
      return .integer ((← MonadState.get).graph.subscribers s).length
  | .hasNode => some do return .boolean ((← MonadState.get).graph.hasNode s)
  | _ => none

def signalOperation? (host : Host) (eval : Expr → Act Value) (s : Nat) :
    Operation → Option (Act Value)
  | .set e => some do
      let v ← eval e
      quietly (setSignal host s v)
  | .update body => some (quietly (updateSignal host s fun v => host.call body [v]))
  | op => readOperation? host s op

/-- What states and reducers have in common; `setter` is how the other half is written. -/
def stateOperation? (host : Host) (s : Nat) (setter : String) : Operation → Option (Act Value)
  | .display => some do
      track s
      borrowing s fun v => return .string v.display
  | .json => some do
      track s
      borrowing s fun v => return .string v.json
  | .dependencyCount => some (return .integer 0)
  | .debug => some do
      let v ← read s
      return .string ("State(" ++ v.json ++ ") " ++ setter ++ "(..)")
  | op => readOperation? host s op

def memoOperation? (host : Host) (m : Nat) : Operation → Option (Act Value)
  | .get => some do
      trackMemo m
      cachedValue m
  | .peek => some (cachedValue m)
  | .borrow body => some (borrowingMemo m (inside host body))
  | .dependencyCount => some do return .integer (← memo m).dependencies.length
  | .debug => some do
      let v ← cachedValue m
      let count := (← memo m).dependencies.length
      return .string (form "Memo" [("value", v.json), ("deps", toString count)])
  | _ => none

def callbackOperation? (host : Host) (eval : Expr → Act Value) (m : Nat) :
    Operation → Option (Act Value)
  | .call e => some do
      let v ← eval e
      trackMemo m
      callCached host m v
  | .callUntracked e => some do
      let v ← eval e
      callCached host m v
  | .dependencyCount => some do return .integer (← memo m).dependencies.length
  | .debug => some do
      return .string (form "CallbackRef" [("deps", toString (← memo m).dependencies.length)])
  | _ => none

def effectOperation? (e : NodeId) : Operation → Option (Act Value)
  | .dispose => some (quietly (disposeEffect e))
  | .isDisposed => some do return .boolean (!(← MonadState.get).effects.contains e)
  | .hasNode => some do return .boolean ((← MonadState.get).graph.hasNode e)
  | _ => none

def hookSlot (h : Nat) : Act HookSlot := do return ((← MonadState.get).hooks.get? h).getD default

def hookOperation? (host : Host) (h : Nat) : Operation → Option (Act Value)
  | .dispose => some (quietly (disposeHook host h))
  | .isDisposed => some do return .boolean (← hookSlot h).disposed
  | .phase => some do return .string (phaseName (← hookSlot h).phase)
  | .debug => some do
      let x ← hookSlot h
      return .string (form "EffectHandle"
        [("phase", phaseName x.phase), ("disposed", truthText x.disposed)])
  | _ => none

def contextOperation? (host : Host) (eval : Expr → Act Value) (context : NodeId)
    (default : Value) : Operation → Option (Act Value)
  | .provide e inside => some do
      let v ← eval e
      providing (⟨context, v⟩ :: (← MonadState.get).providers) (eval inside)
  | .useContext => some do return (← provided? context).getD default
  | .tryContext => some do return (← provided? context).getD .null
  | .defaultValue => some (return default)
  | .consumer body => some do
      let v := (← provided? context).getD default
      inside host body v
  | _ => none

def snapshotOperation? (eval : Expr → Act Value) (providers : List Provider) :
    Operation → Option (Act Value)
  | .runIn e => some (providing providers (eval e))
  | .debug => some do
      return .string (form "ContextSnapshot" [("providers", toString providers.length)])
  | _ => none

def ref (r : Nat) : Act Ref := do return ((← MonadState.get).refs.get? r).getD default

def modifyRef (r : Nat) (f : Ref → Ref) : Act Unit :=
  modify fun w => { w with refs := w.refs.modify r f }

/-- Replace what a ref holds, unless it is borrowed; answers what it held. -/
def replaceRef (r : Nat) (v : Option Value) : Act (Option Value) := do
  let x ← ref r
  if x.readers != 0 then conflict
  else
    modifyRef r fun x => { x with current := v }
    return x.current

def refOperation? (host : Host) (eval : Expr → Act Value) (r : Nat) :
    Operation → Option (Act Value)
  | .current => some do return (← ref r).current.getD .null
  | .take => some do return (← replaceRef r none).getD .null
  | .setCurrent e => some do
      let v ← eval e
      let v := match v with
        | .null => none
        | v => some v
      return (← replaceRef r v).getD .null
  | .attach e => some do
      let v ← eval e
      let _ ← replaceRef r (some v)
      return .null
  | .borrow body => some do
      let v := (← ref r).current.getD .null
      modifyRef r fun x => { x with readers := x.readers + 1 }
      let a ← inside host body v
      modifyRef r fun x => { x with readers := x.readers - 1 }
      return a
  | .debug => some do
      let text := match (← ref r).current with
        | some v => "Some(" ++ v.json ++ ")"
        | none => "None"
      return .string (form "Ref" [("current", text)])
  | _ => none

/-- Declare what a probe depends on, once; answers whether this was the first time. -/
def declareProbe (p : Nat) (entries : List DependencyEntry) : Act Bool := do
  let ds ← dependencies entries
  match ((← MonadState.get).probes.get? p).map (·.dependencies) with
  | some none => do
      modify fun w =>
        { w with probes := w.probes.modify p fun x => { x with dependencies := some ds } }
      return true
  | _ => do
      giveUpDependencies ds
      return false

def probeOperation? (p : Nat) : Operation → Option (Act Value)
  | .declareDependencies entries => some do return .boolean (← declareProbe p entries)
  | _ => none

/-- Make a second handle on the same thing, where the kind of handle allows it. -/
def duplicate (handle : Handle) : Act (Option Handle) := do
  match handle with
  | .signal s => retain (.signal s)
  | .signalPair s | .state s => do
      retain (.signal s)
      retain (.signal s)
  | .reducer s d => do
      retain (.signal s)
      modify fun w =>
        { w with
          dispatchers := w.dispatchers.modify d fun x => { x with owners := x.owners + 1 } }
  | .memo m | .callback m => retain (.memo m)
  | .context .. | .ref _ => pure ()
  | .effect _ | .hook _ | .snapshot _ | .probe _ => return none
  return some handle

/-- What a handle does for an operation; `none` if its kind lacks the operation. -/
def operation? (host : Host) (eval : Expr → Act Value) (handle : Handle) (op : Operation) :
    Option (Act Value) :=
  match op with
  | .clone name => some do
      match ← duplicate handle with
      | some second => do
          bind host name second
          return .boolean true
      | none => return .boolean false
  | op =>
      match handle with
      | .signal s =>
          match op with
          | .borrowUntracked body => some (borrowing s (inside host body))
          | op => signalOperation? host eval s op
      | .signalPair s => signalOperation? host eval s op
      | .state s =>
          match op with
          | .set e => some do
              let v ← eval e
              quietly (write s fun _ => return v)
          | .update body => some (quietly (write s fun v => host.call body [v]))
          | .pending => some do return (← signal s).cache.getD .null
          | op => stateOperation? host s "SetState" op
      | .reducer s d =>
          match op with
          | .dispatch e => some do
              let v ← eval e
              quietly (dispatch host d v)
          | op => stateOperation? host s "Dispatch" op
      | .memo m => memoOperation? host m op
      | .callback m => callbackOperation? host eval m op
      | .effect e => effectOperation? e op
      | .hook h => hookOperation? host h op
      | .context c default => contextOperation? host eval c default op
      | .snapshot providers => snapshotOperation? eval providers op
      | .ref r => refOperation? host eval r op
      | .probe p => probeOperation? p op

end FineGrain.Act
