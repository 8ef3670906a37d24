import FineGrain.Grammar.Read.Declaration
/-!
Imports and exports.
-/

namespace FineGrain.Grammar.Read

/-- A name in an import or export list: a word or a string. -/
structure ExportName where
  text : String
  quoted : Bool
  escaped : Bool
  span : Span

def ExportName.isPlain (n : ExportName) : Bool := !n.quoted && Word.isIdentifier n.text

def exportName : Read ExportName := do
  let t ← token
  match t.kind with
  | .word name =>
      advance
      return ⟨name, false, t.escaped, t.span⟩
  | .string value =>
      advance
      return ⟨value, true, false, t.span⟩
  | _ => refuse

def isAtExportName : Read Bool := do
  match (← token).kind with
  | .word _ | .string _ => return true
  | _ => return false

def moduleSpecifier : Read String := do
  match (← token).kind with
  | .string value =>
      advance
      return value
  | _ => refuse

def importAttributes : Read Unit := do
  let t ← token
  if t.isWord "with" || (t.isWord "assert" && !t.afterLineEnd) then
    advance
    expect .lbrace
    let _ ← commaList .rbrace do
      let _ ← exportName
      expect .colon
      moduleSpecifier
    expect .rbrace

/-- One entry of an import or export list: the name on the module's side, the new one if there is
one, and whether it concerns types alone. -/
structure Specifier where
  first : ExportName
  second : Option ExportName
  typeOnly : Bool

/-- Read one entry of an import or export list. The words `type` and `as` can be names as well. -/
def specifier : Read Specifier := do
  let first ← exportName
  let renamed (first : ExportName) (typeOnly : Bool) : Read Specifier := do
    if ← eatWord "as" then return ⟨first, some (← exportName), typeOnly⟩
    else return ⟨first, none, typeOnly⟩
  if first.text == "type" && !first.quoted && !first.escaped then
    if ← isAtWord "as" then
      let firstAs ← exportName
      if ← isAtWord "as" then
        let secondAs ← exportName
        if ← isAtExportName then return ⟨firstAs, some (← exportName), true⟩
        else return ⟨first, some secondAs, false⟩
      else if ← isAtExportName then return ⟨first, some (← exportName), false⟩
      else return ⟨firstAs, none, true⟩
    else if ← isAtExportName then
      let name ← exportName
      renamed name true
    else renamed first false
  else renamed first false

/-- Read the names in the braces of an import, each with the node that declares it. -/
def importedNames : Read (List (Imported × Node)) := do
  expect .lbrace
  let items ← commaList .rbrace do
    let s ← specifier
    faultIf (s.typeOnly && !(← types))
    let here := s.second.getD s.first
    unless here.isPlain do refuse
    return (Imported.named s.first.text here.text s.typeOnly,
      Node.mk (.binding here.text) here.span [])
  expect .rbrace
  return items.map (·.1)

/-- Read what an import binds, behind the name that comes first if there is one. -/
def importClause (default : Option Node) : Read (List (Imported × Node)) := do
  let first := match default with
    | some (.mk (.binding name) span parts) =>
        [(Imported.default name, Node.mk (.binding name) span parts)]
    | _ => []
  if default.isSome && !(← eat .comma) then return first
  else if ← eat .star then
    expectWord "as"
    let b ← binding
    match b.label with
    | .binding name => return first ++ [(.namespace name, b)]
    | _ => refuse
  else return first ++ (← importedNames)

/-- Whether the word `type` behind `import` says that the import concerns types alone. -/
def isTypeImport (name : Option Node) : Read Bool := do
  match name with
  | some (.mk (.binding "type") _ _) =>
      let t ← token
      if t.isPunct .lbrace || t.isPunct .star then return true
      else if t.isWord "from" then
        nextIs fun t => t.isWord "from" || t.isPunct .assign
      else atIdentifier
  | _ => return false

def importDeclaration (g : Rules) : Read Node := do
  let start ← start
  expectWord "import"
  match (← token).kind with
  | .string value =>
      advance
      importAttributes
      statementEnd
      node (.imports ⟨value, [], false⟩) start []
  | _ =>
      let first ← if ← atIdentifier then pure (some (← binding)) else pure none
      let typeOnly ← isTypeImport first
      faultIf (typeOnly && !(← types))
      let deferred ← match first with
        | some (.mk (.binding "defer") _ _) => isAt .star
        | some (.mk (.binding "source") _ _) =>
            if ← isAtWord "from" then nextIs (·.isWord "from") else atIdentifier
        | _ => pure false
      let first ← if typeOnly || deferred then
          if ← atIdentifier then pure (some (← binding)) else pure none
        else pure first
      match first with
      | some name =>
          if (← isAt .assign) && (← types) then return ← importEquals g start name
      | none => pure ()
      let names ← importClause first
      expectWord "from"
      let source ← moduleSpecifier
      importAttributes
      statementEnd
      node (.imports ⟨source, names.map (·.1), typeOnly⟩) start (names.map (·.2))

def exportDefault (g : Rules) (ds : List Node) : Read Node := do
  let start ← start
  if (← isAt .atSign) || (← isAtWord "class") then
    let more ← decorators g
    classRest g start .declaration false (ds ++ more)
  else if (← types) && (← isAtWord "abstract") && (← nextIs (·.isWord "class")) then
    advance
    classRest g start .declaration false ds
  else if (← types) && (← isAtWord "interface") &&
      (← nextIs fun t => !t.afterLineEnd && t.word?.any Word.isIdentifier) then
    interfaceDeclaration g start
  else if ← isAtFunction then functionDeclaration g start false false
  else
    let e ← withIn (g.assignment true)
    statementEnd
    return e

/-- Read the names in the braces of an export. Without a module behind them they are names of this
unit. -/
def exportedNames (start : Nat) : Read Node := do
  expect .lbrace
  let items ← commaList .rbrace do
    let s ← specifier
    faultIf (s.typeOnly && !(← types))
    return s
  expect .rbrace
  if ← eatWord "from" then
    let _ ← moduleSpecifier
    importAttributes
    statementEnd
    node .exports start []
  else
    faultIf (items.any fun (s, _) => !s.first.isPlain)
    statementEnd
    node .exports start (items.map fun (s, _) => .mk (.reference s.first.text) s.first.span [])

def exportAll (start : Nat) : Read Node := do
  expect .star
  if ← eatWord "as" then
    let _ ← exportName
  expectWord "from"
  let _ ← moduleSpecifier
  importAttributes
  statementEnd
  node .exports start []

def exportDeclaration (g : Rules) (start : Nat) (ds : List Node) : Read Node := do
  expectWord "export"
  if ← isAt .star then exportAll start
  else if ← isAt .lbrace then exportedNames start
  else if ← eatWord "default" then
    let e ← exportDefault g ds
    node .exports start [e]
  else if (← isAtWord "class") || (← isAt .atSign) then
    let here ← Read.start
    let more ← decorators g
    let c ← classRest g here .declaration true (ds ++ more)
    node .exports start [c]
  else if ← isAtFunction then
    let here ← Read.start
    let f ← functionDeclaration g here false true
    node .exports start [f]
  else if (← isAtWord "var") || (← isAtWord "let") || (← isAtWord "const") then
    let here ← Read.start
    if (← types) && (← isAtWord "const") && (← nextIs (·.isWord "enum")) then
      advance
      let e ← enumDeclaration g here
      node .exports start [e]
    else
      let v ← variableStatement g here false
      node .exports start [v]
  else if ← types then
    if ← eat .assign then
      let e ← withIn (g.assignment true)
      statementEnd
      node .exports start [e]
    else if (← isAtWord "as") && (← nextIs (·.isWord "namespace")) then
      advance
      advance
      let _ ← identifier
      statementEnd
      node .exports start []
    else if ← isAtWord "import" then
      advance
      let here ← Read.start
      let name ← binding
      let e ← importEquals g here name
      node .exports start [e]
    else if (← isAtWord "type") && (← nextIs fun t => t.isPunct .lbrace || t.isPunct .star) then
      advance
      if ← isAt .star then exportAll start else exportedNames start
    else
      let here ← Read.start
      let c ← context
      if ← lookahead false (beginsTypeDeclaration c.bound) then
        let d ← typeDeclarationStatement g here
        node .exports start [d]
      else refuse
  else refuse

end FineGrain.Grammar.Read
