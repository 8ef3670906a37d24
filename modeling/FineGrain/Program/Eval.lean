import FineGrain.Program.Operation
/-!
Evaluation of programs. One step evaluates an expression in terms of its parts; the tower of hosts
ties the steps together and is as high as evaluations may be nested.
-/

namespace FineGrain

namespace Act

def create (host : Host) (eval : Expr → Act Value) (name : String) : Creation → Act Handle
  | .signal e => do
      let v ← eval e
      return .signal (← newSignal v 1)
  | .signalPair e => do
      let v ← eval e
      return .signalPair (← newSignal v 2)
  | .effect timing body => do
      let e ← fresh
      newEffect host e timing (.body body)
      return .effect e
  | .context e => do
      let v ← eval e
      return .context (← fresh) v
  | .snapshot => do return .snapshot (← get).providers
  | .state e => do
      let v ← eval e
      return .state (← newState v)
  | .reducer e reduce => do
      let v ← eval e
      let (s, d) ← newReducer v reduce
      return .reducer s d
  | .reducerFrom seed init reduce => do
      let seed ← eval seed
      let v ← host.call init [seed]
      let (s, d) ← newReducer v reduce
      return .reducer s d
  | .memo entries compute => do
      let ds ← dependencies entries
      return .memo (← newMemo host (.compute compute) ds)
  | .callback entries body => do
      let ds ← dependencies entries
      return .callback (← newMemo host (.function body) ds)
  | .hook phase entries body cleanup => do
      let ds ← match entries with
        | some entries => do pure (some (← dependencies entries))
        | none => pure none
      return .hook (← newHook host phase body cleanup ds)
  | .ref e => do
      let v ← eval e
      let v := match v with
        | .null => none
        | v => some v
      let r ← fresh
      modify fun w => { w with refs := w.refs.put r ⟨v, 0⟩ }
      return .ref r
  | .probe key => do
      let p ← fresh
      modify fun w => { w with probes := w.probes.put p ⟨name, key, none, 1⟩ }
      return .probe p

/-- An operation on what goes by a name. The handle is held while the operation is under way. An
unknown name or operation is recorded, and nothing is evaluated. -/
def operate (host : Host) (eval : Expr → Act Value) (name word : String) (op : Operation) :
    Act Value := do
  match ← handle? name with
  | none => do
      log ("?" ++ name)
      return .null
  | some (number, handle) =>
      match operation? host eval handle op with
      | none => do
          log ("?" ++ word)
          return .null
      | some act => do
          hold number
          let v ← act
          letGo host number
          return v

def arithmetic : Arithmetic → Int → Int → Int
  | .add, a, b => a + b
  | .sub, a, b => a - b
  | .mul, a, b => a * b

/-- Evaluate an expression inside a body with the given arguments. -/
def evalStep (host : Host) (arguments : List Value) (e : Expr) : Act Value :=
  let eval := fun e => host.call e arguments
  match e with
  | .value v => return v
  | .argument index => return (arguments[index]?).getD .null
  | .sequence all => do return (← all.mapM eval).getLastD .null
  | .list items => do return .list (← items.mapM eval)
  | .concat parts => do return .string (String.join ((← parts.mapM eval).map Value.display))
  | .log parts => do
      log (String.join ((← parts.mapM eval).map Value.display))
      return .null
  | .arithmetic op a b => do
      let a ← eval a
      let b ← eval b
      return .wrap (arithmetic op a.toInt b.toInt)
  | .equal a b => do
      let a ← eval a
      let b ← eval b
      return .boolean (a.same b)
  | .less a b => do
      let a ← eval a
      let b ← eval b
      return .boolean (a.toInt < b.toInt)
  | .branch test yes no => do
      if (← eval test).isTruthy then eval yes else eval no
  | .create name made => do
      bind host name (← create host eval name made)
      return .null
  | .drop name => do return .boolean (← dropName host name)
  | .untrack e => untracked (eval e)
  | .queue body => quietly (queueTask (.body body))
  | .drain => do return .integer (← drain host)
  | .pendingTasks => do return .integer (← get).tasks.length
  | .observing => do return .boolean (← get).graph.observer?.isSome
  | .trackAll entries => do
      let ds ← dependencies entries
      trackAll ds
      giveUpDependencies ds
      return .null
  | .compare a b => do
      let a ← dependency a
      let b ← dependency b
      let v ← compareDependencies a b
      giveUpDependencies [a, b]
      return v
  | .on name word op => operate host eval name word op

end Act

namespace Host

/-- The host that evaluates whatever is nested no deeper than the given number. -/
def ofDepth : Nat → Host
  | 0 => ⟨fun _ _ => Act.exhausted, 0⟩
  | n + 1 => ⟨fun e arguments => Act.evalStep (ofDepth n) arguments e, n⟩

end Host

/-- What one expression of a program answers, and what is recorded meanwhile. -/
structure StepAnswer where
  outcome : Except Abort Value
  log : List String

namespace Program

/-- Evaluate the expressions of a program in turn, until one stops short. -/
def runFrom (host : Host) : World → List Expr → List StepAnswer
  | _, [] => []
  | w, e :: rest =>
      match (host.call e []).run.run { w with log := [] } with
      | (.ok v, w) => ⟨.ok v, w.log⟩ :: runFrom host w rest
      | (.error a, w) => [⟨.error a, w.log⟩]

/-- How deep evaluations may be nested, and how often a loop may go round: more than any program that
ends in practice needs. -/
def depthLimit : Nat := 0x10000000000

def run (program : List Expr) : List StepAnswer := runFrom (.ofDepth depthLimit) .empty program

end Program

end FineGrain
