import FineGrain.Grammar.Read.Types
/-!
Functions: bodies with their directives, function literals and declarations, and arrow functions.
-/

namespace FineGrain.Grammar.Read

/-- Whether a statement is a directive: a string literal alone, without parentheses. -/
def directive? (n : Node) : Option Span :=
  match n with
  | .mk .expressionStatement span [.mk (.string _) inner _] =>
      if inner.start == span.start then some span else none
  | _ => none

/-- Split the directives off the front of a statement list. -/
def splitDirectives : List Node → List Span × List Node
  | [] => ([], [])
  | n :: rest =>
      match directive? n with
      | some span =>
          let (ds, ss) := splitDirectives rest
          (span :: ds, ss)
      | none => ([], n :: rest)

def statements (g : Rules) : Read (List Node) :=
  many
    (do
      let t ← token
      return !(t.isPunct .rbrace || t.kind == .endOfText))
    (g.statement false)

def functionBody (g : Rules) : Read Node := do
  let start ← start
  expect .lbrace
  let all ← within (fun c => { c with returns := true }) (statements g)
  expect .rbrace
  let (directives, rest) := splitDirectives all
  node (.body directives) start rest

/-- Read a function from its type parameters on. Where types are admitted a function that is no literal
may lack its body; it is a signature then. -/
def functionRest (g : Rules) (start : Nat) (role : Role) (literal async generator : Bool)
    (name : List Node) : Read Node :=
  within (fun c => { c with inOperator := true, yieldWord := generator, awaitWord := async }) do
    let tps ← typeParameters g
    let ps ← parameters g
    answerAnnotation g
    if ← isAt .lbrace then
      let body ← functionBody g
      node (.function role) start (name ++ tps ++ [ps, body])
    else if !literal && (← types) then
      statementEnd
      node (.function .signature) start (name ++ tps ++ [ps])
    else refuse

def isAtFunction : Read Bool := do
  if ← isAtWord "function" then return true
  if (← isAtWord "async") && !(← token).escaped then
    nextIs fun t => t.isWord "function" && !t.afterLineEnd
  else return false

def functionExpression (g : Rules) : Read Node := do
  let start ← start
  let async ← eatWord "async"
  expectWord "function"
  let generator ← eat .star
  let name ← within (fun c => { c with yieldWord := generator, awaitWord := async }) do
    if ← atIdentifier then return [← binding] else return []
  functionRest g start .expression true async generator name

/-- Read a function declaration; `alone` says that it stands where one statement does, where only
plain functions may, and `named` that it needs a name. -/
def functionDeclaration (g : Rules) (start : Nat) (alone named : Bool) : Read Node := do
  let async ← eatWord "async"
  expectWord "function"
  let generator ← eat .star
  let name ← if ← atIdentifier then pure [← binding] else pure []
  faultIf (named && name.isEmpty)
  faultIf (alone && (async || generator))
  functionRest g start .declaration false async generator name

/-- What a parenthesis or angle bracket opens, as far as the next tokens tell. -/
inductive Outlook where
  | arrow | other | open
deriving DecidableEq, Repr

/-- Words that can stand before a parameter. -/
def modifierWords : List String :=
  ["abstract", "accessor", "const", "declare", "default", "export", "in", "out", "override",
   "private", "protected", "public", "readonly", "static"]

/-- The outlook behind the opening parenthesis. -/
def parenOutlook : Read Outlook := do
  let t ← token
  match t.kind with
  | .punct .rparen =>
      advance
      if (← isAt .arrow) || (← isAt .colon) || (← isAt .lbrace) then return .arrow
      else return .other
  | .punct .lbracket | .punct .lbrace => return .open
  | .punct .ellipsis =>
      advance
      if ← atIdentifier then return .arrow else return .open
  | .word name =>
      if modifierWords.contains name && (← nextIs fun t => t.word?.any Word.isIdentifier) then
        advance
        if ← isAtWord "as" then return .other else return .arrow
      else if !Word.isIdentifier name && name != "this" then return .other
      else
        advance
        if ← isAt .colon then return .arrow
        else if ← isAt .question then
          advance
          if (← isAt .colon) || (← isAt .comma) || (← isAt .assign) || (← isAt .rparen) then
            return .arrow
          else return .other
        else if (← isAt .comma) || (← isAt .assign) || (← isAt .rparen) then return .open
        else return .other
  | _ => return .other

/-- The outlook behind an opening angle bracket: type parameters or markup. -/
def angleOutlook : Read Outlook := do
  let named := (← token).word?.any fun n => Word.isIdentifier n || n == "const"
  if !named then return .other
  else if ← markup then
    let _ ← eatWord "const"
    advance
    if ← isAtWord "extends" then
      advance
      if (← isAt .assign) || (← isAt .gt) || (← isAt .slash) then return .other
      else return .arrow
    else if (← isAt .comma) || (← isAt .assign) then return .arrow
    else return .other
  else return .open

def arrowOutlook : Read Outlook := lookahead .other do
  if (← isAtWord "async") && !(← token).escaped then
    advance
    if (← token).afterLineEnd then return .other
  if ← isAt .lparen then
    advance
    parenOutlook
  else if ← isAt .lt then
    advance
    angleOutlook
  else return .other

/-- An arrow function as read up to its arrow. -/
structure ArrowHead where
  start : Nat
  async : Bool
  parts : List Node
  answers : Bool

def arrowHead (g : Rules) : Read ArrowHead := do
  let start ← start
  let async ← eatWord "async"
  let (parts, answers) ← within (fun c => { c with awaitWord := c.awaitWord || async }) do
    let tps ← typeParameters g
    let ps ← parameters g
    let answers := (← types) && (← isAt .colon)
    answerAnnotation g
    return (tps ++ [ps], answers)
  faultIf ((← token).afterLineEnd && (← isAt .arrow))
  expect .arrow
  return ⟨start, async, parts, answers⟩

def arrowBody (g : Rules) (head : ArrowHead) (mayAnswer : Bool) : Read Node :=
  within (fun c => { c with awaitWord := head.async, yieldWord := false }) do
    if ← isAt .lbrace then
      let body ← functionBody g
      node (.arrow false) head.start (head.parts ++ [body])
    else
      let e ← g.assignment mayAnswer
      let body := Node.mk (.body []) e.span [.mk .expressionStatement e.span [e]]
      node (.arrow true) head.start (head.parts ++ [body])

/-- Read an arrow function if one comes next. Between the question mark and the colon of a
conditional a type behind the parameters is doubtful; it counts if another colon follows. -/
def possibleArrow (g : Rules) (mayAnswer : Bool) : Read (Option Node) := do
  let before ← get
  match ← attempt (arrowHead g) with
  | none => return none
  | some head =>
      let f ← arrowBody g head mayAnswer
      if !mayAnswer && head.answers && !(← isAt .colon) then
        set before
        return none
      else return some f

/-- Read an arrow function whose parameter is the name `parameter`, from its arrow on. -/
def nameArrow (g : Rules) (start : Nat) (async : Bool) (parameter : Node) (mayAnswer : Bool) :
    Read Node := do
  faultIf (← token).afterLineEnd
  expect .arrow
  arrowBody g ⟨start, async, [.mk .params parameter.span [parameter]], false⟩ mayAnswer

def isAtAsyncName : Read Bool := lookahead false do
  if !(← isAtWord "async") || (← token).escaped then return false
  advance
  if (← token).afterLineEnd || !(← atIdentifier) then return false
  advance
  return (← isAt .arrow) && !(← token).afterLineEnd

/-- Read an arrow function with parentheses or an asynchronous one, if one comes next. -/
def arrowFunction? (g : Rules) (mayAnswer : Bool) : Read (Option Node) := do
  match ← arrowOutlook with
  | .arrow =>
      let head ← arrowHead g
      return some (← arrowBody g head mayAnswer)
  | .open =>
      match ← possibleArrow g mayAnswer with
      | some f => return some f
      | none => return none
  | .other =>
      if ← isAtAsyncName then
        let start ← start
        takeKeyword
        let name ← binding
        return some (← nameArrow g start true name mayAnswer)
      else return none

end FineGrain.Grammar.Read
