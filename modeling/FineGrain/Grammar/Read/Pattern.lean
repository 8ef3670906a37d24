import FineGrain.Grammar.Read.Basic
/-!
Property names, decorators, patterns that declare, and parameter lists.
-/

namespace FineGrain.Grammar.Read

def withIn (r : Read α) : Read α := within (fun c => { c with inOperator := true }) r

def annotation (g : Rules) : Read Unit := do
  if (← types) && (← isAt .colon) then
    advance
    g.type

def propertyName (g : Rules) : Read (Node × Bool) := do
  let start ← start
  match (← token).kind with
  | .word name =>
      advance
      return (← node (.key name) start [], false)
  | .string value =>
      advance
      return (← node (.string value) start [], false)
  | .number =>
      advance
      return (← node .number start [], false)
  | .bigint =>
      advance
      return (← node .bigint start [], false)
  | .punct .lbracket =>
      advance
      let e ← withIn (g.assignment true)
      expect .rbracket
      return (e, true)
  | _ => refuse

def decorators (g : Rules) : Read (List Node) :=
  many (isAt .atSign) do
    advance
    within (fun c => { c with decorator := true }) g.leftHand

def withDefault (g : Rules) (start : Nat) (p : Node) : Read Node := do
  if ← eat .assign then
    let e ← withIn (g.assignment true)
    node .defaulted start [p, e]
  else return p

def patternWithDefault (g : Rules) : Read Node := do
  let start ← start
  let p ← g.pattern
  annotation g
  withDefault g start p

/-- Note a fault where a rest element is not the last one, or a comma follows it. -/
def checkRest (items : List (Node × Bool)) : Read Unit :=
  faultIf (items.any fun (n, comma) => n.label == .rest && comma)

def restPattern (g : Rules) : Read Node := do
  let start ← start
  expect .ellipsis
  let p ← g.pattern
  annotation g
  node .rest start [p]

def patternProperty (g : Rules) : Read Node := do
  let start ← start
  let plain ← atIdentifier
  let t ← token
  let (key, _) ← propertyName g
  match key.label with
  | .key name =>
      if plain && !(← isAt .colon) then
        checkName name
        let p ← withDefault g start (.mk (.binding name) t.span [])
        node .patternProperty start [key, p]
      else
        expect .colon
        let p ← patternWithDefault g
        node .patternProperty start [key, p]
  | _ =>
      expect .colon
      let p ← patternWithDefault g
      node .patternProperty start [key, p]

def objectPattern (g : Rules) : Read Node := do
  let start ← start
  expect .lbrace
  let items ← commaList .rbrace do
    if ← isAt .ellipsis then
      let r ← restPattern g
      faultIf (r.parts.any fun p => p.label == .objectPattern || p.label == .arrayPattern)
      return r
    else patternProperty g
  checkRest items
  expect .rbrace
  node .objectPattern start (items.map (·.1))

def arrayPattern (g : Rules) : Read Node := do
  let start ← start
  expect .lbracket
  let items ← commaList .rbracket do
    if ← isAt .comma then return none
    else if ← isAt .ellipsis then return some (← restPattern g)
    else return some (← patternWithDefault g)
  let present := items.filterMap fun (n, comma) => n.map (·, comma)
  checkRest present
  expect .rbracket
  node .arrayPattern start (present.map (·.1))

def patternRule (g : Rules) : Read Node := do
  if ← isAt .lbrace then objectPattern g
  else if ← isAt .lbracket then arrayPattern g
  else binding

/-- The words that may stand before a parameter that also declares a member. -/
def parameterModifiers : List String := ["public", "private", "protected", "readonly", "override"]

/-- Read the modifiers of a parameter: words that another word or a pattern follows. -/
def skipParameterModifiers : Read Unit := do
  if ← types then
    let _ ← many
      (do
        let modifier := (← token).word?.any parameterModifiers.contains
        if modifier then
          nextIs fun t => t.word?.isSome || t.isPunct .lbrace || t.isPunct .lbracket
        else return false)
      advance

def parameter (g : Rules) : Read (List Node × Node) := do
  let start ← start
  let ds ← decorators g
  skipParameterModifiers
  if ← isAt .ellipsis then return (ds, ← restPattern g)
  else
    let p ← g.pattern
    if (← types) && (← isAt .question) then advance
    annotation g
    return (ds, ← withDefault g start p)

def parameters (g : Rules) : Read Node := do
  let start ← start
  expect .lparen
  if (← types) && (← isAtWord "this") then
    takeKeyword
    annotation g
    unless ← isAt .rparen do expect .comma
  let items ← commaList .rparen (parameter g)
  checkRest (items.map fun ((_, p), comma) => (p, comma))
  expect .rparen
  node .params start (items.flatMap fun ((ds, p), _) => ds ++ [p])

end FineGrain.Grammar.Read
