import FineGrain.Grammar.Read.Expression
/-!
Markup: elements and fragments with their attributes and children. Whatever ends an element hands
over to the reading of text when the element is itself a child.
-/

namespace FineGrain.Grammar.Read

def advanceToChild : Read Unit := do
  moveTo (Scanned.markupChild (← get).next)

def closeWith (mark : Punct) (amongChildren : Bool) : Read Unit := do
  unless ← isAt mark do refuse
  if amongChildren then advanceToChild else advance

def markupWord : Read (List Char) := do
  let s ← get
  match s.token.kind with
  | .word _ =>
      let (t, next) := Scanned.markupName s.token s.next
      set { s with token := t, next := next }
      let name := (Text.takeBytes (t.span.stop - t.span.start) s.here.rest).getD []
      advance
      return name
  | _ => refuse

def dottedParts : Read (List Char) := do
  let parts ← many (isAt .dot) do
    advance
    let part ← markupWord
    faultIf (part.contains '-')
    return part
  return parts.flatMap ('.' :: ·)

def elementName : Read (List Char) := do
  let first ← markupWord
  if ← eat .colon then
    let second ← markupWord
    return first ++ ':' :: second
  else if ← isAt .dot then
    faultIf (first.contains '-')
    let rest ← dottedParts
    return first ++ rest
  else return first

def embedded (g : Rules) : Read Node := do
  let e ← within (fun c => { c with inOperator := true, decorator := false }) g.expression
  faultIf (e.label == .sequence)
  return e

def container (g : Rules) (amongChildren : Bool) : Read Node := do
  let start ← start
  expect .lbrace
  if ← isAt .rbrace then
    closeWith .rbrace amongChildren
    node .container start []
  else if amongChildren && (← isAt .ellipsis) then
    advance
    let e ← embedded g
    closeWith .rbrace amongChildren
    node .markupSpreadChild start [e]
  else
    let e ← embedded g
    closeWith .rbrace amongChildren
    node .container start [e]

def attributeValue (g : Rules) : Read (List Node) := do
  match (← token).kind with
  | .string _ =>
      advance
      return []
  | .punct .lbrace =>
      let e ← container g false
      faultIf e.parts.isEmpty
      return [e]
  | .punct .lt => return [← g.markup false]
  | _ => refuse

def elementAttribute (g : Rules) : Read Node := do
  let start ← start
  if ← isAt .lbrace then
    advance
    expect .ellipsis
    let e ← embedded g
    expect .rbrace
    node .markupSpread start [e]
  else
    let _ ← markupWord
    if ← eat .colon then
      let _ ← markupWord
    if ← isAt .assign then
      let c ← context
      moveTo (Scanned.attributeValue c.dialect (← get).next)
      let value ← attributeValue g
      node .attribute start value
    else node .attribute start []

def attributesEnd : Read Bool := do
  return (← isAt .gt) || (← isAt .slash) || (← token).kind == .endOfText

/-- The mark behind the less-than sign that comes next closes an element. -/
def isAtClosing : Read Bool := do
  if ← isAt .lt then nextIs (·.isPunct .slash) else return false

def markupChildren (g : Rules) : Nat → Read (List Node)
  | 0 => refuse
  | n + 1 => do
      match (← token).kind with
      | .markupText =>
          advanceToChild
          markupChildren g n
      | .punct .lbrace =>
          let c ← container g true
          let rest ← markupChildren g n
          return c :: rest
      | .punct .lt =>
          if ← isAtClosing then return []
          else
            let e ← g.markup true
            let rest ← markupChildren g n
            return e :: rest
      | _ => refuse

/-- Read the children and the closing mark of an element whose name is `name`; a fragment has
none. -/
def childrenAndClosing (g : Rules) (name : List Char) (amongChildren : Bool) :
    Read (List Node) := do
  let children ← markupChildren g (← context).bound
  expect .lt
  expect .slash
  let closing ← if ← isAt .gt then pure [] else elementName
  faultIf (closing != name)
  closeWith .gt amongChildren
  return children

def markupRule (g : Rules) (amongChildren : Bool) : Read Node := do
  let start ← start
  expect .lt
  if ← isAt .gt then
    advanceToChild
    let children ← childrenAndClosing g [] amongChildren
    node .fragment start children
  else
    let name ← elementName
    typeArgumentsIfAny g
    let attributes ← many (do return !(← attributesEnd)) (elementAttribute g)
    if ← eat .slash then
      closeWith .gt amongChildren
      node .element start attributes
    else
      closeWith .gt true
      let children ← childrenAndClosing g name amongChildren
      node .element start (attributes ++ children)

end FineGrain.Grammar.Read
