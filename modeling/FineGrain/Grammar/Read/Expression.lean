import FineGrain.Grammar.Node.Target
import FineGrain.Grammar.Read.Function
/-!
Expressions, from the names and literals up to lists with commas.
-/

namespace FineGrain.Grammar.Read

def beginsExpression (t : Token) : Bool :=
  match t.kind with
  | .word name =>
      Word.isIdentifier name || ["this", "super", "null", "true", "false", "function", "class",
        "new", "delete", "typeof", "void", "import"].contains name
  | .string _ | .number | .bigint | .regex | .template _ _ | .privateName _ => true
  | .punct m => [.lbracket, .lbrace, .lparen, .plusPlus, .minusMinus, .plus, .minus, .tilde, .bang,
      .lt, .slash, .slashAssign, .atSign].contains m
  | _ => false

/-- The rank of an operator between two operands, whether it groups to the right, and which kind
of connective it is. -/
structure Operator where
  rank : Nat
  rightward : Bool
  joined : Connective

/-- The operator that a token is between two operands. -/
def operator? (types : Bool) (t : Token) : Option Operator :=
  match t.kind with
  | .punct m =>
      match m with
      | .coalesce => some ⟨1, false, .coalesce⟩
      | .orOr => some ⟨2, false, .andOr⟩
      | .andAnd => some ⟨3, false, .andOr⟩
      | .bar => some ⟨4, false, .other⟩
      | .caret => some ⟨5, false, .other⟩
      | .amp => some ⟨6, false, .other⟩
      | .eqEq | .notEq | .same | .notSame => some ⟨7, false, .other⟩
      | .lt | .gt | .le | .ge => some ⟨8, false, .other⟩
      | .shl | .shr | .ushr => some ⟨9, false, .other⟩
      | .plus | .minus => some ⟨10, false, .other⟩
      | .star | .slash | .percent => some ⟨11, false, .other⟩
      | .starStar => some ⟨12, true, .other⟩
      | _ => none
  | .word "in" | .word "instanceof" => some ⟨8, false, .other⟩
  | .word "as" | .word "satisfies" => if types then some ⟨8, false, .other⟩ else none
  | _ => none

def clash : Connective → Connective → Bool
  | .coalesce, .andOr => true
  | .andOr, .coalesce => true
  | _, _ => false

def clashes (joined : Connective) (operand : Node) : Bool :=
  match operand.label with
  | .binary inner => clash joined inner
  | _ => false

def typeOrConst (g : Rules) : Read Unit := do
  if ← isAtWord "const" then advance else g.type

/-! ### Names and literals -/

def reference : Read Node := do
  let start ← start
  let name ← identifier
  node (.reference name) start []

def leaf (label : Label) : Read Node := do
  let start ← start
  advance
  node label start []

def regex : Read Node := do
  let s ← get
  rescan (Scanned.regex s.here ⟨s.here.offset + 1, s.here.rest.drop 1⟩ s.token.afterLineEnd)
  match (← token).kind with
  | .regex => leaf .regex
  | _ => refuse

def substitutions (g : Rules) (tagged : Bool) : Nat → Read (List Node)
  | 0 => refuse
  | n + 1 => do
      let e ← withIn g.expression
      let s ← get
      unless s.token.isPunct .rbrace do refuse
      rescan (Scanned.template false s.here s.next s.token.afterLineEnd)
      match (← token).kind with
      | .template .tail ok =>
          faultIf (!ok && !tagged)
          advance
          return [e]
      | .template .middle ok =>
          faultIf (!ok && !tagged)
          advance
          let rest ← substitutions g tagged n
          return e :: rest
      | _ => refuse

def template (g : Rules) (tagged : Bool) : Read Node := do
  let start ← start
  match (← token).kind with
  | .template .whole ok =>
      faultIf (!ok && !tagged)
      advance
      node .template start []
  | .template .head ok =>
      faultIf (!ok && !tagged)
      advance
      let parts ← substitutions g tagged (← context).bound
      node .template start parts
  | _ => refuse

def isAtTemplate : Read Bool := do
  match (← token).kind with
  | .template .whole _ | .template .head _ => return true
  | _ => return false

/-! ### Literals with parts -/

/-- Note whether a comma follows a spread element. -/
def markSpread : Node × Bool → Node
  | (.mk (.spread _) span parts, comma) => .mk (.spread (!comma)) span parts
  | (n, _) => n

def arrayLiteral (g : Rules) : Read Node := do
  let start ← start
  expect .lbracket
  let items ← withIn (commaList .rbracket do
    if ← isAt .comma then return none
    else
      let start ← Read.start
      if ← eat .ellipsis then
        let e ← g.assignment true
        return some (← node (.spread true) start [e])
      else return some (← g.assignment true))
  expect .rbracket
  node .array start ((items.filterMap fun (n, comma) => n.map (·, comma)).map markSpread)

/-- Whether the word `async` that comes next is a modifier: what may be a method follows it on the
same line. -/
def isAsyncModifier : Read Bool := do
  if (← isAtWord "async") && !(← token).escaped then
    nextIs fun t => !t.afterLineEnd &&
      (beginsName t || t.isPunct .star || t.isPunct .lbrace || t.isPunct .ellipsis)
  else return false

/-- Whether the word that comes next makes an accessor: a property name follows it. -/
def isAccessorWord (name : String) : Read Bool := do
  if (← isAtWord name) && !(← token).escaped then nextIs beginsName
  else return false

/-- The number of parameters of a function node. -/
def parameterCount (f : Node) : Nat :=
  ((f.parts.find? (·.label == .params)).map (·.parts.length)).getD 0

/-- Whether the parameters of a function node are those that a getter or setter has. -/
def accessorFits (getter : Bool) (f : Node) : Bool :=
  if getter then parameterCount f == 0
  else parameterCount f == 1 &&
    !(f.parts.any fun p => p.label == .params && p.parts.any (·.label == .rest))

/-- Read a method from its parameters on; only those of an object literal need a body everywhere. -/
def method (g : Rules) (ofObject async generator : Bool) : Read Node := do
  functionRest g (← start) .expression ofObject async generator []

def property (g : Rules) : Read Node := do
  let start ← start
  if ← eat .ellipsis then
    let e ← g.assignment true
    node (.spread true) start [e]
  else
    let async ← isAsyncModifier
    if async then takeKeyword
    let getter ← isAccessorWord "get"
    let setter ← isAccessorWord "set"
    if !async && (getter || setter) then
      takeKeyword
      let (key, computed) ← propertyName g
      let f ← method g true false false
      faultIf (!accessorFits getter f)
      node (.property (if getter then .getter else .setter) computed) start [key, f]
    else
      let generator ← eat .star
      let t ← token
      let c ← context
      let plain := t.word?.any fun n => Word.isIdentifier n &&
        !(n == "await" && c.awaitWord) && !(n == "yield" && c.yieldWord)
      let (key, computed) ← propertyName g
      if generator || (← isAt .lparen) || (← isAt .lt) then
        let f ← method g true async generator
        node (.property .method computed) start [key, f]
      else if async then refuse
      else if plain && !(← isAt .colon) then
        let value := Node.mk (.reference (t.word?.getD "")) t.span []
        if ← eat .assign then
          let init ← g.assignment true
          node (.property .shorthand false) start [key, value, init]
        else node (.property .shorthand false) start [key, value]
      else
        expect .colon
        let value ← g.assignment true
        node (.property .value computed) start [key, value]

def objectLiteral (g : Rules) : Read Node := do
  let start ← start
  expect .lbrace
  let items ← withIn (commaList .rbrace (property g))
  expect .rbrace
  node .object start (items.map markSpread)

def parenthesized (g : Rules) : Read Node := do
  let start ← start
  expect .lparen
  let inner ← Read.start
  let items ← within (fun c => { c with inOperator := true, decorator := false })
    (commaList .rparen (g.assignment true))
  match items with
  | [] => refuse
  | [(e, comma)] =>
      faultIf comma
      expect .rparen
      node .paren start [e]
  | _ =>
      faultIf (items.getLast?.any (·.2))
      let e ← node .sequence inner (items.map (·.1))
      expect .rparen
      node .paren start [e]

/-! ### Calls and members -/

def arguments (g : Rules) : Read (List Node) := do
  expect .lparen
  let items ← within (fun c => { c with inOperator := true, decorator := false })
    (commaList .rparen do
      let start ← start
      if ← eat .ellipsis then
        let e ← g.assignment true
        node (.spread true) start [e]
      else g.assignment true)
  expect .rparen
  return items.map markSpread

/-- Read what stands behind the word `import` in an expression: a call or the description of the
module. -/
def importExpression (g : Rules) : Read Node := do
  let start ← start
  expectWord "import"
  let call : Read Node := do
    expect .lparen
    let specifier ← withIn (g.assignment true)
    let options ←
      if (← eat .comma) && !(← isAt .rparen) then
        let e ← withIn (g.assignment true)
        let _ ← eat .comma
        pure [e]
      else pure []
    expect .rparen
    node .importCall start (specifier :: options)
  if ← eat .dot then
    if ← isAtWord "meta" then
      takeKeyword
      node .metaProperty start []
    else if (← isAtWord "source") || (← isAtWord "defer") then
      advance
      call
    else refuse
  else call

/-- Read type arguments behind an expression. They count only where no operand can follow. -/
def expressionTypeArguments (g : Rules) : Read Unit := do
  typeArguments g
  let t ← token
  if t.isPunct .lparen || (← isAtTemplate) then return
  if t.isPunct .lt || t.isPunct .gt || t.isPunct .plus || t.isPunct .minus then refuse
  if t.afterLineEnd || (operator? true t).isSome || !beginsExpression t then return
  refuse

/-- The expression without the type arguments behind it. -/
def uninstantiated : Node → Node
  | .mk .instantiated _ [e] => e
  | n => n

def memberName (start : Nat) (object : Node) : Read Node := do
  match (← token).kind with
  | .word name =>
      advance
      node (.member name) start [object]
  | .privateName _ =>
      advance
      node .privateMember start [object]
  | _ => refuse

/-- Read the members, indices and templates behind an expression. The flag says whether a chain
that a missing value cuts short has begun. -/
def membersN (g : Rules) (start : Nat) : Nat → Node → Bool → Read (Node × Bool)
  | 0, _, _ => refuse
  | n + 1, e, chain => do
      let t ← token
      match t.kind with
      | .punct .dot =>
          faultIf (e.label == .instantiated)
          advance
          let m ← memberName start e
          membersN g start n m chain
      | .punct .optionalDot =>
          let indexed ← nextIs (·.isPunct .lbracket)
          let named ← nextIs fun t => match t.kind with
            | .word _ | .privateName _ => true
            | _ => false
          if indexed then
            advance
            advance
            let i ← withIn g.expression
            expect .rbracket
            let m ← node .index start [e, i]
            membersN g start n m true
          else if named then
            advance
            let m ← memberName start e
            membersN g start n m true
          else return (e, chain)
      | .punct .lbracket =>
          if (← context).decorator then return (e, chain)
          advance
          let i ← withIn g.expression
          expect .rbracket
          let m ← node .index start [e, i]
          membersN g start n m chain
      | .punct .bang =>
          if (← types) && !t.afterLineEnd then
            advance
            let m ← node .typed start [e]
            membersN g start n m chain
          else return (e, chain)
      | .template .whole _ | .template .head _ =>
          faultIf chain
          let q ← template g true
          let m ← node .tagged start [uninstantiated e, q]
          membersN g start n m chain
      | .punct .lt | .punct .shl =>
          if ← types then
            match ← attempt (expressionTypeArguments g) with
            | some () =>
                let m ← node .instantiated start [uninstantiated e]
                membersN g start n m chain
            | none => return (e, chain)
          else return (e, chain)
      | _ => return (e, chain)

def members (g : Rules) (start : Nat) (e : Node) (chain : Bool) : Read (Node × Bool) := do
  membersN g start (← context).bound e chain

def callsN (g : Rules) (start : Nat) : Nat → Node → Bool → Read (Node × Bool)
  | 0, _, _ => refuse
  | n + 1, e, chain => do
      let (e, chain) ← members g start e chain
      let optional ← eat .optionalDot
      let chain := chain || optional
      let applied ←
        if optional && (← types) && ((← isAt .lt) || (← isAt .shl)) then
          attempt (expressionTypeArguments g)
        else pure none
      if optional && (← isAtTemplate) then
        fault
        let q ← template g true
        let m ← node .tagged start [e, q]
        callsN g start n m chain
      else if applied.isSome || (← isAt .lparen) then
        let args ← arguments g
        let m ← node .call start (uninstantiated e :: args)
        callsN g start n m chain
      else if optional then refuse
      else return (e, chain)

def leftHandRule (g : Rules) : Read Node := do
  let start ← start
  let (e, chain) ← g.member
  let (e, chain) ← callsN g start (← context).bound e chain
  if !chain then return e
  else
    match e with
    | .mk .instantiated span [inner] => return .mk .instantiated span [.mk .chain inner.span [inner]]
    | .mk (.member _) span _ | .mk .index span _ | .mk .privateMember span _
    | .mk .call span _ | .mk .typed span _ => return .mk .chain span [e]
    | _ => return e

def construct (g : Rules) : Read Node := do
  let start ← start
  expectWord "new"
  if ← eat .dot then
    if ← isAtWord "target" then
      takeKeyword
      node .metaProperty start []
    else refuse
  else
    let (callee, chain) ← g.member
    let callee := uninstantiated callee
    let chain := chain || (← isAt .optionalDot)
    let args ← if ← isAt .lparen then arguments g else pure []
    faultIf (callee.label == .importCall || chain)
    node .construct start (callee :: args)

/-! ### Names, literals and everything in brackets -/

def primary (g : Rules) (classExpression : Read Node) : Read Node := do
  if ← isAt .atSign then classExpression
  else if ← isAtFunction then functionExpression g
  else
    match (← token).kind with
    | .string value => leaf (.string value)
    | .number => leaf .number
    | .bigint => leaf .bigint
    | .template _ _ => template g false
    | .punct .slash | .punct .slashAssign => regex
    | .punct .lbracket => arrayLiteral g
    | .punct .lbrace => objectLiteral g
    | .punct .lparen => parenthesized g
    | .word "this" => faultIf (← token).escaped; leaf .this
    | .word "null" => faultIf (← token).escaped; leaf .null
    | .word "true" | .word "false" => faultIf (← token).escaped; leaf .boolean
    | .word "class" => classExpression
    | .word "import" => importExpression g
    | .word _ => reference
    | _ => refuse

def memberRule (g : Rules) (classExpression : Read Node) : Read (Node × Bool) := do
  let start ← start
  let e ←
    if ← isAtWord "super" then
      takeKeyword
      faultIf !((← isAt .dot) || (← isAt .lbracket) || (← isAt .lparen))
      node .super start []
    else if ← isAtWord "new" then construct g
    else primary g classExpression
  members g start e false

/-! ### Operators -/

def stepped (g : Rules) : Read Node := do
  let start ← start
  if (← isAt .plusPlus) || (← isAt .minusMinus) then
    advance
    let e ← g.unary
    match e.simpleTarget? with
    | some t => node .update start [t]
    | none => refuse
  else
    let e ← g.leftHand
    if ((← isAt .plusPlus) || (← isAt .minusMinus)) && !(← token).afterLineEnd then
      match e.simpleTarget? with
      | some t =>
          advance
          node .update start [t]
      | none => refuse
    else return e

def operandFollows : Read Bool :=
  nextIs fun t => !t.afterLineEnd && match t.kind with
    | .word _ | .string _ | .number | .bigint | .template .whole _ => true
    | _ => false

def isAwait : Read Bool := do
  if ← isAtWord "await" then
    if (← context).awaitWord then return true else operandFollows
  else return false

def unaryRule (g : Rules) : Read Node := do
  let start ← start
  let t ← token
  let isOperator := match t.kind with
    | .punct m => m.isUnary
    | .word name => ["typeof", "void", "delete"].contains name
    | _ => false
  if isOperator then
    faultIf t.escaped
    advance
    let e ← g.simpleUnary
    faultIf (← isAt .starStar)
    node .unary start [e]
  else if t.isPunct .lt then
    if ← markup then g.markup false
    else if ← types then
      advance
      typeOrConst g
      expect .gt
      let e ← g.simpleUnary
      node .typed start [e]
    else refuse
  else if ← isAwait then
    faultIf !(← context).awaitWord
    takeKeyword
    let e ← within (fun c => { c with awaitWord := true }) g.simpleUnary
    faultIf (← isAt .starStar)
    node .await start [e]
  else stepped g

def operatorsN (g : Rules) (start rank : Nat) : Nat → Node → Read Node
  | 0, _ => refuse
  | n + 1, left => do
      joinGreater
      let t ← token
      match operator? (← types) t with
      | none => return left
      | some op =>
          let stop := if op.rightward then op.rank < rank else op.rank ≤ rank
          if stop || (t.isWord "in" && !(← context).inOperator) then return left
          else if t.isWord "as" || t.isWord "satisfies" then
            if t.afterLineEnd then return left
            else
              advance
              typeOrConst g
              let e ← node .typed start [left]
              operatorsN g start rank n e
          else
            faultIf t.escaped
            advance
            let right ← g.binary op.rank
            faultIf (clashes op.joined left || clashes op.joined right)
            let e ← node (.binary op.joined) start [left, right]
            operatorsN g start rank n e

def binaryRule (g : Rules) (rank : Nat) : Read Node := do
  let start ← start
  let left ←
    match (← token).kind with
    | .privateName _ =>
        if (← context).inOperator then
          let key ← leaf .privateKey
          expectWord "in"
          let right ← g.binary 8
          node (.binary .other) start [key, right]
        else refuse
    | _ => g.unary
  operatorsN g start rank (← context).bound left

def isYield : Read Bool := do
  if ← isAtWord "yield" then
    if (← context).yieldWord then return true else operandFollows
  else return false

def yieldExpression (g : Rules) : Read Node := do
  let start ← start
  faultIf !(← context).yieldWord
  takeKeyword
  if (← token).afterLineEnd then node .yield start []
  else
    let delegate ← eat .star
    let t ← token
    let ends := t.kind == .endOfText || t.isWord "in" ||
      [Punct.semicolon, .rbrace, .rparen, .rbracket, .colon, .comma].any t.isPunct
    if ends && !delegate then node .yield start []
    else
      let e ← within (fun c => { c with yieldWord := true }) (g.assignment true)
      node .yield start [e]

def conditional (g : Rules) (start : Nat) (condition : Node) (mayAnswer : Bool) : Read Node := do
  if ← eat .question then
    let yes ← withIn (g.assignment false)
    expect .colon
    let no ← g.assignment mayAnswer
    node .conditional start [condition, yes, no]
  else return condition

def assignmentRule (g : Rules) (mayAnswer : Bool) : Read Node := do
  if ← isYield then yieldExpression g
  else
    match ← arrowFunction? g mayAnswer with
    | some f => return f
    | none =>
        let start ← start
        let left ← g.binary 0
        match left with
        | .mk (.reference name) span _ =>
            if ← isAt .arrow then
              return ← nameArrow g start false (.mk (.binding name) span []) mayAnswer
        | _ => pure ()
        joinGreater
        match (← token).kind with
        | .punct mark =>
            if mark.isAssignment then
              let target := if mark == .assign then left.target? else left.simpleTarget?
              match target with
              | some t =>
                  advance
                  let value ← g.assignment mayAnswer
                  node (.assign (mark == .assign)) start [t, value]
              | none => refuse
            else conditional g start left mayAnswer
        | _ => conditional g start left mayAnswer

def expressionRule (g : Rules) : Read Node :=
  within (fun c => { c with decorator := false }) do
    let start ← start
    let first ← g.assignment true
    if ← isAt .comma then
      let rest ← many (isAt .comma) do
        advance
        g.assignment true
      node .sequence start (first :: rest)
    else return first

end FineGrain.Grammar.Read
