import FineGrain.Grammar.Read.Pattern
/-!
Types. Reading a type leaves no node behind, except for what declarations of types declare or read
outside the types themselves: type parameters, parameters and computed names.
-/

namespace FineGrain.Grammar.Read

def typeArguments (g : Rules) : Read Unit := do
  splitLess
  expect .lt
  let items ← commaList .gt g.type
  if items.isEmpty then refuse
  expect .gt

def typeArgumentsIfAny (g : Rules) : Read Unit := do
  if (← types) && ((← isAt .lt) || (← isAt .shl)) then typeArguments g

def typeParameter (g : Rules) : Read Node := do
  let _ ← many
    (do
      let modifier := (← token).word?.any ["const", "in", "out"].contains
      if modifier then nextIs fun t => t.word?.isSome else return false)
    advance
  let name ← binding
  if ← eatWord "extends" then g.type
  if ← eat .assign then g.type
  return name

def typeParameters (g : Rules) : Read (List Node) := do
  if (← types) && (← isAt .lt) then
    let start ← start
    advance
    let items ← commaList .gt (typeParameter g)
    if items.isEmpty then fault
    expect .gt
    return [← node .typeParameters start (items.map (·.1))]
  else return []

/-- Read the type that a function answers: a type, or what it says of a parameter. -/
def answerType (g : Rules) : Read Unit := do
  let subject (t : Token) : Bool :=
    !t.afterLineEnd && t.word?.any fun n => Word.isIdentifier n || n == "this"
  if (← isAtWord "asserts") && (← nextIs subject) then
    advance
    advance
    if ← isAtWord "is" then
      advance
      g.type
  else
    let named := (← token).word?.any fun n => Word.isIdentifier n || n == "this"
    if named && (← nextIs fun t => t.isWord "is" && !t.afterLineEnd) then
      advance
      advance
      g.type
    else g.type

def answerAnnotation (g : Rules) : Read Unit := do
  if (← types) && (← isAt .colon) then
    advance
    answerType g

/-- Whether the parenthesis that comes next opens the parameters of a function type. -/
def opensFunctionType (g : Rules) : Read Bool := lookahead false do
  expect .lparen
  if (← isAt .rparen) || (← isAt .ellipsis) then return true
  skipParameterModifiers
  if ← isAtWord "this" then advance
  else
    let _ ← g.pattern
  if (← isAt .colon) || (← isAt .comma) || (← isAt .question) || (← isAt .assign) then return true
  if ← eat .rparen then isAt .arrow
  else return false

def functionType (g : Rules) : Read Unit := do
  let _ ← typeParameters g
  let _ ← parameters g
  expect .arrow
  answerType g

def dottedName : Read Unit := do
  let _ ← anyName
  let _ ← many (isAt .dot) do
    advance
    anyName

def typeArgumentsOnLine (g : Rules) : Read Unit := do
  unless (← token).afterLineEnd do
    if (← isAt .lt) || (← isAt .shl) then typeArguments g

def importType (g : Rules) : Read Unit := do
  expectWord "import"
  expect .lparen
  let _ ← commaList .rparen (g.assignment true)
  expect .rparen
  let _ ← many (isAt .dot) do
    advance
    anyName
  typeArgumentsOnLine g

def templateType (g : Rules) : Nat → Read Unit
  | 0 => refuse
  | n + 1 => do
      g.type
      let s ← get
      unless s.token.isPunct .rbrace do refuse
      rescan (Scanned.template false s.here s.next s.token.afterLineEnd)
      match (← token).kind with
      | .template .tail _ => advance
      | .template .middle _ =>
          advance
          templateType g n
      | _ => refuse

def tupleElement (g : Rules) : Read Unit := do
  let _ ← eat .ellipsis
  let named ← lookahead false do
    let _ ← anyName
    let _ ← eat .question
    isAt .colon
  if named then
    let _ ← anyName
    let _ ← eat .question
    expect .colon
  g.type
  let _ ← eat .question

def memberEnd : Read Unit := do
  if ← eat .comma then return
  statementEnd

/-- The words that may stand before a member of an object type. -/
def memberModifiers : List String :=
  ["readonly", "get", "set", "static", "public", "private", "protected", "declare", "abstract"]

def beginsName (t : Token) : Bool :=
  match t.kind with
  | .word _ | .string _ | .number | .bigint | .privateName _ => true
  | .punct .lbracket => true
  | _ => false

def isAtIndexSignature : Read Bool := lookahead false do
  expect .lbracket
  let _ ← anyName
  isAt .colon

def indexSignature (g : Rules) : Read Unit := do
  expect .lbracket
  let _ ← anyName
  annotation g
  expect .rbracket
  annotation g

def signature (g : Rules) : Read Node := do
  let start ← start
  let tps ← typeParameters g
  let ps ← parameters g
  answerAnnotation g
  node .typeScope start (tps ++ [ps])

def typeMember (g : Rules) : Read (List Node) := do
  if (← isAt .lparen) || (← isAt .lt) then
    let s ← signature g
    memberEnd
    return [s]
  else if (← isAtWord "new") && (← nextIs fun t => t.isPunct .lparen || t.isPunct .lt) then
    advance
    let s ← signature g
    memberEnd
    return [s]
  else
    let mods ← many
      (do
        let modifier := (← token).word?.any memberModifiers.contains
        if modifier then nextIs fun t => beginsName t && !t.afterLineEnd else return false)
      anyName
    faultIf (mods.any fun m => !(["readonly", "get", "set"].contains m))
    if ← isAtIndexSignature then
      indexSignature g
      memberEnd
      return []
    else
      let (key, _) ← propertyName g
      let _ ← eat .question
      if (← isAt .lparen) || (← isAt .lt) then
        let s ← signature g
        memberEnd
        return [key, s]
      else
        annotation g
        memberEnd
        return [key]

def typeMembers (g : Rules) : Read (List Node) := do
  expect .lbrace
  let items ← many (do return !(← isAt .rbrace)) (typeMember g)
  expect .rbrace
  return items.flatten

def opensMappedType : Read Bool := lookahead false do
  expect .lbrace
  if (← isAt .plus) || (← isAt .minus) then
    advance
    isAtWord "readonly"
  else
    let _ ← eatWord "readonly"
    expect .lbracket
    let _ ← anyName
    isAtWord "in"

def sign : Read Unit := do
  if (← isAt .plus) || (← isAt .minus) then advance

def mappedType (g : Rules) : Read Unit := do
  expect .lbrace
  sign
  let _ ← eatWord "readonly"
  expect .lbracket
  let _ ← anyName
  expectWord "in"
  g.type
  if ← eatWord "as" then g.type
  expect .rbracket
  sign
  let _ ← eat .question
  annotation g
  let _ ← eat .semicolon
  expect .rbrace

def primaryType (g : Rules) : Read Unit := do
  match (← token).kind with
  | .string _ | .number | .bigint => advance
  | .template .whole _ => advance
  | .template .head _ =>
      advance
      templateType g (← context).bound
  | .punct .minus =>
      advance
      match (← token).kind with
      | .number | .bigint => advance
      | _ => refuse
  | .punct .lbrace =>
      if ← opensMappedType then mappedType g
      else
        let _ ← typeMembers g
  | .punct .lbracket =>
      advance
      let _ ← commaList .rbracket (tupleElement g)
      expect .rbracket
  | .punct .lparen =>
      advance
      within (fun c => { c with noConditional := false }) g.type
      expect .rparen
  | .word "typeof" =>
      advance
      if ← isAtWord "import" then importType g
      else
        dottedName
        typeArgumentsOnLine g
  | .word "import" => importType g
  | .word name =>
      if ["this", "void", "null", "true", "false"].contains name then advance
      else if Word.isIdentifier name then
        dottedName
        typeArgumentsOnLine g
      else refuse
  | _ => refuse

def postfixType (g : Rules) : Read Unit := do
  primaryType g
  let _ ← many
    (do return (← isAt .lbracket) && !(← token).afterLineEnd)
    (do
      advance
      unless ← isAt .rbracket do g.type
      expect .rbracket)

def operatorType (g : Rules) : Read Unit := do
  let _ ← many
    (do return (← token).word?.any ["keyof", "unique", "readonly"].contains)
    advance
  if ← isAtWord "infer" then
    advance
    let _ ← anyName
    let _ ← attempt do
      expectWord "extends"
      within (fun c => { c with noConditional := true }) g.type
      if !(← context).noConditional && (← isAt .question) then refuse
  else postfixType g

def joinedTypes (mark : Punct) (operand : Read Unit) : Read Unit := do
  let _ ← eat mark
  operand
  let _ ← many (isAt mark) do
    advance
    operand

def typeRule (g : Rules) : Read Unit := do
  if (← isAt .lt) || (← opensFunctionType g) then functionType g
  else if ← isAtWord "new" then
    advance
    functionType g
  else if (← isAtWord "abstract") && (← nextIs (·.isWord "new")) then
    advance
    advance
    functionType g
  else
    joinedTypes .bar (joinedTypes .amp (operatorType g))
    let c ← context
    if !c.noConditional && !(← token).afterLineEnd && (← isAtWord "extends") then
      advance
      within (fun c => { c with noConditional := true }) g.type
      expect .question
      g.type
      expect .colon
      g.type

end FineGrain.Grammar.Read
