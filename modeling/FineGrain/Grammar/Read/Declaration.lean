import FineGrain.Grammar.Read.Class
/-!
Declarations: variables, and what belongs to types (interfaces, aliases, enumerations, namespaces
and everything that is declared without being defined).
-/

namespace FineGrain.Grammar.Read

/-- Read one declarator. Outside the head of a loop a pattern needs a value, and so does a
constant. -/
def declarator (g : Rules) (kind : VariableKind) (constant loopHead : Bool) : Read Node := do
  let start ← start
  let p ← g.pattern
  let plain := match p.label with | .binding _ => true | _ => false
  if (← types) && plain && (← isAt .bang) && !(← token).afterLineEnd then advance
  annotation g
  if ← eat .assign then
    let e ← g.assignment true
    node (.declarator kind) start [p, e]
  else
    unless loopHead do
      faultIf (!plain || (constant && !(← context).ambient))
    node (.declarator kind) start [p]

/-- Read a declaration of variables from its keyword on, without the end of the statement. -/
def variableList (g : Rules) (start : Nat) (loopHead : Bool) : Read Node := do
  let keyword ← token
  takeKeyword
  let kind : VariableKind := if keyword.isWord "var" then .var else .block
  let constant := keyword.isWord "const"
  let first ← declarator g kind constant loopHead
  let rest ← many (isAt .comma) do
    advance
    declarator g kind constant loopHead
  node .variableList start (first :: rest)

def variableStatement (g : Rules) (start : Nat) (alone : Bool) : Read Node := do
  let lexical := !(← isAtWord "var")
  let d ← variableList g start false
  statementEnd
  faultIf (alone && lexical)
  return .mk d.label (← spanFrom start) d.parts

def typeDeclaration (start : Nat) (parts : List Node) : Read Node :=
  node .typeDeclaration start parts

def interfaceDeclaration (g : Rules) (start : Nat) : Read Node := do
  expectWord "interface"
  let name ← binding
  let inside ← Read.start
  let tps ← typeParameters g
  let heritage ← if ← eatWord "extends" then
      let one : Read Node := do
        let e ← g.leftHand
        typeArgumentsIfAny g
        return uninstantiated e
      let first ← one
      let rest ← many (isAt .comma) do
        advance
        one
      pure (first :: rest)
    else pure []
  let members ← typeMembers g
  let scope ← node .typeScope inside (tps ++ heritage ++ members)
  typeDeclaration start [name, scope]

def typeAlias (g : Rules) (start : Nat) : Read Node := do
  expectWord "type"
  let name ← binding
  let inside ← Read.start
  let tps ← typeParameters g
  expect .assign
  g.type
  statementEnd
  let scope ← node .typeScope inside tps
  typeDeclaration start [name, scope]

def enumMember (g : Rules) : Read (List Node) := do
  match (← token).kind with
  | .word _ | .string _ => advance
  | .punct .lbracket =>
      advance
      match (← token).kind with
      | .string _ | .template .whole _ => advance
      | _ => refuse
      expect .rbracket
  | _ => refuse
  if ← eat .assign then return [← g.assignment true] else return []

def enumDeclaration (g : Rules) (start : Nat) : Read Node := do
  expectWord "enum"
  let name ← binding
  expect .lbrace
  let values ← commaList .rbrace (enumMember g)
  expect .rbrace
  typeDeclaration start (name :: values.flatMap (·.1))

def namespaceBody (g : Rules) : Read Node := do
  let start ← start
  expect .lbrace
  let body ← within (fun c => { c with returns := false }) (statements g)
  expect .rbrace
  node .typeScope start body

/-- Read the names of a namespace and its body; each name lies in the scope of the one before. -/
def namespaceRest (g : Rules) (start : Nat) : Nat → Read Node
  | 0 => refuse
  | n + 1 => do
      let name ← binding
      if ← eat .dot then
        let here ← Read.start
        let inner ← namespaceRest g here n
        typeDeclaration start [name, .mk .typeScope inner.span [inner]]
      else
        let body ← namespaceBody g
        typeDeclaration start [name, body]

def namespaceDeclaration (g : Rules) (start : Nat) : Read Node := do
  if ← isAtWord "global" then
    advance
    let body ← namespaceBody g
    typeDeclaration start [body]
  else
    advance
    match (← token).kind with
    | .string _ =>
        advance
        if ← isAt .lbrace then
          let body ← namespaceBody g
          typeDeclaration start [body]
        else
          statementEnd
          typeDeclaration start []
    | _ => namespaceRest g start (← context).bound

def importEquals (g : Rules) (start : Nat) (name : Node) : Read Node := do
  expect .assign
  if (← isAtWord "require") && (← nextIs (·.isPunct .lparen)) then
    advance
    expect .lparen
    match (← token).kind with
    | .string _ => advance
    | _ => refuse
    expect .rparen
    statementEnd
    typeDeclaration start [name]
  else
    let r ← implementedType g
    statementEnd
    typeDeclaration start [name, r]

/-- Words that stand before a declaration. -/
def declarationModifiers : List String :=
  ["abstract", "accessor", "async", "declare", "private", "protected", "public", "readonly"]

/-- Whether a declaration that belongs to types begins here, looking past modifiers. -/
def beginsTypeDeclaration : Nat → Read Bool
  | 0 => return false
  | n + 1 => do
      match (← token).word? with
      | none => return false
      | some name =>
          if ["var", "let", "const", "function", "class", "enum"].contains name then return true
          else if name == "interface" || name == "type" then
            nextIs fun t => !t.afterLineEnd && t.word?.any Word.isIdentifier
          else if name == "module" || name == "namespace" then
            nextIs fun t => !t.afterLineEnd && match t.kind with
              | .word w => Word.isIdentifier w
              | .string _ => true
              | _ => false
          else if name == "global" then
            nextIs fun t => t.isPunct .lbrace || t.isWord "export" ||
              t.word?.any Word.isIdentifier
          else if declarationModifiers.contains name then
            advance
            if (← token).afterLineEnd then return false
            else beginsTypeDeclaration n
          else if name == "import" then
            nextIs fun t => match t.kind with
              | .word _ | .string _ => true
              | .punct .lbrace | .punct .star => true
              | _ => false
          else return false

def isAtTypeDeclaration : Read Bool := do
  if ← types then
    let c ← context
    let plain := (← token).word?.any
      ["var", "let", "const", "function", "class", "import", "async"].contains
    if plain then return false
    else lookahead false (beginsTypeDeclaration c.bound)
  else return false

/-- The modifiers that a declaration can have, by its first word. -/
def admittedModifiers : String → List String
  | "class" => ["declare", "abstract"]
  | "function" => ["declare", "async"]
  | _ => ["declare"]

def typeDeclarationStatement (g : Rules) (start : Nat) : Read Node := do
  let mods ← many
    (do
      let modifier := (← token).word?.any declarationModifiers.contains
      if modifier then
        nextIs fun t => !t.afterLineEnd && t.word?.isSome
      else return false)
    anyName
  let declared := mods.contains "declare"
  let admitted := admittedModifiers (((← token).word?).getD "")
  faultIf (mods.eraseDups != mods || mods.any (!admitted.contains ·))
  within (fun c => { c with ambient := c.ambient || declared }) do
    match (← token).word? with
    | some "interface" => interfaceDeclaration g start
    | some "type" => typeAlias g start
    | some "enum" => enumDeclaration g start
    | some "module" | some "namespace" | some "global" => namespaceDeclaration g start
    | some "class" => classRest g start .declaration true []
    | some "function" => functionDeclaration g start false true
    | some "const" =>
        if ← nextIs (·.isWord "enum") then
          advance
          enumDeclaration g start
        else variableStatement g start false
    | some "var" | some "let" => variableStatement g start false
    | _ => refuse

end FineGrain.Grammar.Read
