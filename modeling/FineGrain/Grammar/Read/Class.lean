import FineGrain.Grammar.Read.Expression
/-!
Classes: heritage, members, and the words that may stand before a member.
-/

namespace FineGrain.Grammar.Read

/-- The words that may stand before a class member wherever classes are written. -/
def plainModifiers : List String := ["static", "async", "accessor"]

/-- The words that may stand before a class member where types are admitted. -/
def typedModifiers : List String :=
  ["public", "private", "protected", "readonly", "override", "abstract", "declare"]

def staticBlock (g : Rules) (start : Nat) : Read Node := do
  expect .lbrace
  let body ← within (fun c => { c with awaitWord := true, yieldWord := false, returns := false })
    (statements g)
  expect .rbrace
  node .staticBlock start body

/-- Whether a modifier comes next: one of the words before a member, with the member's name or
another modifier behind it. The word `static` may end its line. -/
def isAtModifier : Read Bool := do
  match (← token).word? with
  | some name =>
      if (← token).escaped then return false
      else if name == "static" then
        nextIs fun t => beginsName t || t.isPunct .star
      else if plainModifiers.contains name || ((← types) && typedModifiers.contains name) then
        nextIs fun t => !t.afterLineEnd && (beginsName t || t.isPunct .star)
      else return false
  | none => return false

/-- Read the modifiers of a member behind those already seen. A second `static` is a name. -/
def modifiersN : Nat → List String → Read (List String)
  | 0, seen => return seen
  | n + 1, seen => do
      let repeated ← if seen.contains "static" then isAtWord "static" else pure false
      if repeated || !(← isAtModifier) then return seen
      else
        let name ← anyName
        faultIf (seen.contains name)
        modifiersN n (seen ++ [name])

def modifiers : Read (List String) := do modifiersN (← context).bound []

def memberKey (g : Rules) : Read (Node × Bool) := do
  match (← token).kind with
  | .privateName name =>
      faultIf (name == "constructor")
      return (← leaf .privateKey, false)
  | _ => propertyName g

def keyName? (key : Node) (computed : Bool) : Option String :=
  if computed then none
  else match key.label with
    | .key name => some name
    | .string value => some value
    | _ => none

def accessor (g : Rules) (start : Nat) (ds : List Node) (mods : List String) (getter : Bool) :
    Read Node := do
  let static := mods.contains "static"
  faultIf (mods.contains "async" || mods.contains "declare")
  let (key, computed) ← memberKey g
  faultIf (!static && keyName? key computed == some "constructor")
  faultIf (static && keyName? key computed == some "prototype")
  let f ← method g false false false
  faultIf (!accessorFits getter f)
  node .method start (ds ++ [key, f])

def methodOrField (g : Rules) (start : Nat) (ds : List Node) (mods : List String) : Read Node := do
  let static := mods.contains "static"
  let generator ← eat .star
  let (key, computed) ← memberKey g
  let name := keyName? key computed
  if ← types then
    let _ ← eat .question
  if generator || (← isAt .lparen) || (← isAt .lt) then
    let async := mods.contains "async"
    faultIf (!static && name == some "constructor" && (async || generator))
    faultIf (static && name == some "prototype")
    let f ← method g false async generator
    node .method start (ds ++ [key, f])
  else
    faultIf (mods.contains "async")
    faultIf (name == some "constructor" || (static && name == some "prototype"))
    if (← types) && (← isAt .bang) then advance
    annotation g
    let value ← if ← eat .assign then
        let e ← within (fun c =>
          { c with inOperator := true, yieldWord := false, awaitWord := false })
          (g.assignment true)
        pure [e]
      else pure []
    statementEnd
    node .field start (ds ++ key :: value)

def classMember (g : Rules) : Read (List Node) := do
  if ← eat .semicolon then return []
  else
    let start ← start
    let ds ← decorators g
    let block ← if ← isAtWord "static" then nextIs (·.isPunct .lbrace) else pure false
    if block then
      takeKeyword
      return [← staticBlock g start]
    else
      let mods ← modifiers
      let late ← if ← isAtWord "static" then nextIs (·.isPunct .lbrace) else pure false
      if late then refuse
      if ← isAccessorWord "get" then
        takeKeyword
        return [← accessor g start ds mods true]
      else if ← isAccessorWord "set" then
        takeKeyword
        return [← accessor g start ds mods false]
      else if (← types) && (← isAtIndexSignature) then
        indexSignature g
        memberEnd
        return []
      else return [← methodOrField g start ds mods]

def extendsClause (g : Rules) : Read (List Node) := do
  if ← eatWord "extends" then
    let e ← g.leftHand
    let e := uninstantiated e
    typeArgumentsIfAny g
    return [e]
  else return []

def implementedType (g : Rules) : Read Node := do
  let start ← start
  let name ← anyName
  let r ← node (.reference name) start []
  let _ ← many (isAt .dot) do
    advance
    anyName
  typeArgumentsIfAny g
  return r

def implementsClause (g : Rules) : Read (List Node) := do
  if (← types) && (← isAtWord "implements") then
    takeKeyword
    let first ← implementedType g
    let rest ← many (isAt .comma) do
      advance
      implementedType g
    return first :: rest
  else return []

def classRest (g : Rules) (start : Nat) (role : Role) (named : Bool) (ds : List Node) :
    Read Node := do
  expectWord "class"
  let inside ← Read.start
  let hasName := (← token).word?.any fun n => Word.isIdentifier n && n != "implements"
  let name ← if hasName then pure [← binding] else pure []
  faultIf (named && name.isEmpty)
  let tps ← typeParameters g
  let super ← extendsClause g
  let interfaces ← implementsClause g
  expect .lbrace
  let members ← many (do return !(← isAt .rbrace)) (classMember g)
  expect .rbrace
  let scope ← node .classScope inside (tps ++ super ++ interfaces ++ members.flatten)
  node (.class role) start (ds ++ name ++ [scope])

def classExpression (g : Rules) : Read Node := do
  let start ← start
  let ds ← decorators g
  classRest g start .expression false ds

end FineGrain.Grammar.Read
