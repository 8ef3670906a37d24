import FineGrain.Grammar.Read.Module
/-!
Statements.
-/

namespace FineGrain.Grammar.Read

def condition (g : Rules) : Read Node := do
  expect .lparen
  let e ← withIn g.expression
  expect .rparen
  return e

def block (g : Rules) : Read Node := do
  let start ← start
  expect .lbrace
  let body ← statements g
  expect .rbrace
  node .block start body

def expressionStatement (g : Rules) : Read Node := do
  let start ← start
  let e ← withIn g.expression
  match e.label with
  | .reference _ =>
      if ← eat .colon then
        let body ← g.statement true
        node .statement start [body]
      else
        statementEnd
        node .expressionStatement start [e]
  | _ =>
      statementEnd
      node .expressionStatement start [e]

def ifStatement (g : Rules) (start : Nat) : Read Node := do
  takeKeyword
  let c ← condition g
  let yes ← g.statement true
  if ← eatWord "else" then
    let no ← g.statement true
    node .statement start [c, yes, no]
  else node .statement start [c, yes]

def doStatement (g : Rules) (start : Nat) : Read Node := do
  takeKeyword
  let body ← g.statement true
  expectWord "while"
  let c ← condition g
  let _ ← eat .semicolon
  node .statement start [body, c]

def conditionStatement (g : Rules) (start : Nat) : Read Node := do
  takeKeyword
  let c ← condition g
  let body ← g.statement true
  node .statement start [c, body]

def expressionUnless (g : Rules) (stop : Punct) : Read (List Node) := do
  if ← isAt stop then return [] else return [← withIn g.expression]

def countingLoop (g : Rules) (start : Nat) (init : List Node) (awaits : Bool) : Read Node := do
  expect .semicolon
  faultIf awaits
  let test ← expressionUnless g .semicolon
  expect .semicolon
  let step ← expressionUnless g .rparen
  expect .rparen
  let body ← g.statement true
  node .loop start (init ++ test ++ step ++ [body])

/-- Read a loop over something, from the word behind its left side on; `none` if no such word
comes. -/
def loopOver (g : Rules) (start : Nat) (left : Node) (awaits : Bool) : Read (Option Node) := do
  if ← isAtWord "in" then
    faultIf awaits
    takeKeyword
    let e ← withIn g.expression
    expect .rparen
    let body ← g.statement true
    return some (← node .loop start [left, e, body])
  else if ← isAtWord "of" then
    takeKeyword
    let e ← withIn (g.assignment true)
    expect .rparen
    let body ← g.statement true
    return some (← node .loop start [left, e, body])
  else return none

def isAtUsing : Read Bool := lookahead false do
  if ← isAtWord "await" then
    advance
    if (← token).afterLineEnd then return false
  if ← isAtWord "using" then
    advance
    return (← atIdentifier) && !(← token).afterLineEnd && !(← isAtWord "of")
  else return false

/-- Read a declaration of resources, which are names; outside the head of a loop each has a value. -/
def usingList (g : Rules) (start : Nat) (loopHead : Bool) : Read Node := do
  let _ ← eatWord "await"
  let d ← variableList g start true
  faultIf (d.parts.any fun declarator =>
    match declarator.parts with
    | .mk (.binding _) _ _ :: value => !loopHead && value.isEmpty
    | _ => true)
  return d

def declaresInHead : Read Bool := do
  let t ← token
  if t.isWord "var" || t.isWord "const" then return true
  else if t.isWord "let" then
    nextIs fun t => t.isPunct .lbrace || t.isPunct .lbracket || match t.kind with
      | .word name => name != "in"
      | _ => false
  else return false

/-- Read the variables or resources that the head of a loop declares, if it declares any. -/
def headDeclaration? (g : Rules) (start : Nat) : Read (Option Node) :=
  within (fun c => { c with inOperator := false }) do
    if ← declaresInHead then return some (← variableList g start true)
    else if ← isAtUsing then
      let d ← usingList g start true
      faultIf (← isAtWord "in")
      return some d
    else return none

def forStatement (g : Rules) (start : Nat) : Read Node := do
  takeKeyword
  let awaits ← if ← isAtWord "await" then
      faultIf !(← context).awaitWord
      takeKeyword
      pure true
    else pure false
  expect .lparen
  if ← isAt .semicolon then countingLoop g start [] awaits
  else
    match ← headDeclaration? g (← Read.start) with
    | some d =>
      match ← loopOver g start d awaits with
      | some l => return l
      | none => countingLoop g start [d] awaits
    | none =>
      let word := (← token).word?
      let e ← within (fun c => { c with inOperator := false }) g.expression
      if (← isAtWord "in") || (← isAtWord "of") then
        let isOf ← isAtWord "of"
        faultIf (isOf && !awaits && word == some "async" && e.reference? == some "async")
        faultIf (isOf && word == some "let")
        match e.target? with
        | some t =>
            match ← loopOver g start t awaits with
            | some l => return l
            | none => refuse
        | none => refuse
      else countingLoop g start [e] awaits

def jump (start : Nat) : Read Node := do
  takeKeyword
  unless ← statementMayEnd do
    let _ ← identifier
  statementEnd
  node .statement start []

def switchCase (g : Rules) : Read Node := do
  let start ← start
  let test ← if ← eatWord "default" then pure []
    else
      expectWord "case"
      pure [← withIn g.expression]
  expect .colon
  let body ← many
    (do
      let t ← token
      return !(t.isPunct .rbrace || t.isWord "case" || t.isWord "default" ||
        t.kind == .endOfText))
    (g.statement false)
  node .statement start (test ++ body)

def switchStatement (g : Rules) (start : Nat) : Read Node := do
  takeKeyword
  let e ← condition g
  let inside ← Read.start
  expect .lbrace
  let cases ← many (do return !(← isAt .rbrace)) (switchCase g)
  expect .rbrace
  let scope ← node .cases inside cases
  node .switch start [e, scope]

def catchClause (g : Rules) : Read Node := do
  let start ← start
  expectWord "catch"
  let parameter ← if ← eat .lparen then
      let p ← g.pattern
      annotation g
      expect .rparen
      pure [p]
    else pure []
  let body ← block g
  node .catch start (parameter ++ [body])

def tryStatement (g : Rules) (start : Nat) : Read Node := do
  takeKeyword
  let body ← block g
  let handler ← if ← isAtWord "catch" then pure [← catchClause g] else pure []
  let finalizer ← if ← eatWord "finally" then pure [← block g] else pure []
  faultIf (handler.isEmpty && finalizer.isEmpty)
  node .statement start (body :: handler ++ finalizer)

def returnStatement (g : Rules) (start : Nat) : Read Node := do
  faultIf !(← context).returns
  takeKeyword
  let value ← if ← statementMayEnd then pure [] else pure [← withIn g.expression]
  statementEnd
  node .statement start value

def throwStatement (g : Rules) (start : Nat) : Read Node := do
  takeKeyword
  faultIf (← token).afterLineEnd
  let value ← withIn g.expression
  statementEnd
  node .statement start [value]

def letDeclares (alone : Bool) : Read Bool :=
  nextIs fun t =>
    let operator := match t.kind with
      | .punct m => m.isAssignment || (operator? false t).isSome
      | .word "in" | .word "instanceof" => true
      | _ => false
    !(operator || t.isPunct .dot || t.isPunct .lparen || t.isPunct .semicolon ||
      (alone && !t.isPunct .lbracket))

def usingStatement (g : Rules) (start : Nat) (alone : Bool) : Read Node := do
  let d ← usingList g start false
  statementEnd
  faultIf alone
  return d

def decorated (g : Rules) (start : Nat) : Read Node := do
  let ds ← decorators g
  if ← isAtWord "export" then exportDeclaration g start ds
  else
    if ← types then
      if (← isAtWord "abstract") || (← isAtWord "declare") then advance
    classRest g start .declaration true ds

def statementRule (g : Rules) (alone : Bool) : Read Node := do
  let start ← start
  let t ← token
  match t.kind with
  | .punct .lbrace => block g
  | .punct .semicolon =>
      advance
      node .statement start []
  | .punct .atSign => decorated g start
  | .word "if" => ifStatement g start
  | .word "do" => doStatement g start
  | .word "while" | .word "with" => conditionStatement g start
  | .word "for" => forStatement g start
  | .word "continue" | .word "break" => jump start
  | .word "switch" => switchStatement g start
  | .word "return" => returnStatement g start
  | .word "throw" => throwStatement g start
  | .word "try" => tryStatement g start
  | .word "debugger" =>
      takeKeyword
      statementEnd
      node .statement start []
  | .word "class" =>
      faultIf alone
      classRest g start .declaration true []
  | .word "export" => exportDeclaration g start []
  | .word "import" =>
      if ← nextIs fun t => t.isPunct .lparen || t.isPunct .dot then expressionStatement g
      else importDeclaration g
  | .word "var" => variableStatement g start alone
  | .word "const" =>
      if (← types) && (← nextIs (·.isWord "enum")) then
        advance
        enumDeclaration g start
      else variableStatement g start alone
  | .word "let" =>
      if !t.escaped && (← letDeclares alone) then variableStatement g start alone
      else expressionStatement g
  | .word "function" => functionDeclaration g start alone true
  | .word _ =>
      if ← isAtFunction then functionDeclaration g start alone true
      else if ← isAtUsing then usingStatement g start alone
      else if ← isAtTypeDeclaration then typeDeclarationStatement g start
      else expressionStatement g
  | _ => expressionStatement g

end FineGrain.Grammar.Read
