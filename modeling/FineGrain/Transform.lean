import FineGrain.AnonymousFunction
import FineGrain.Grammar.Program
import FineGrain.Rewrite.Tree
/-!
The transform of one unit: name the anonymous functions, read the result, collect the names under
which it imports the framework, and make the edits that its tree calls for. A unit without edits is
answered exactly as given.
-/

namespace FineGrain

open Grammar

/-- Why a unit has no transform: it does not parse. -/
inductive TransformError where
  | malformed (path : Option String)
deriving DecidableEq, Repr

namespace TransformError

def message : TransformError → String
  | malformed path => "failed to parse " ++ path.getD "<input>"

end TransformError

namespace Transform

/-- The role of a name imported from the framework. -/
def roleOf? : String → Option AliasRole
  | "createElement" => some .factory
  | "useEffect" | "useLayoutEffect" | "useInsertionEffect" => some .effect
  | "Fragment" => some .fragment
  | _ => none

def addImported (frame : AliasFrame) : Imported → AliasFrame
  | .default binding => frame.add .root binding
  | .namespace binding => frame.add .root binding
  | .named name binding typeOnly =>
      match typeOnly, roleOf? name with
      | false, some role => frame.add role binding
      | _, _ => frame

/-- Record what a statement imports from the framework as values. -/
def addStatement (options : Options) (frame : AliasFrame) (statement : Node) : AliasFrame :=
  match statement.label with
  | .imports declared =>
      if declared.typeOnly || !options.isSource declared.source then frame
      else declared.names.foldl addImported frame.markImported
  | _ => frame

/-- Record what a unit imports from the framework. -/
def addAliases (options : Options) (program : Program) (frame : AliasFrame) : AliasFrame :=
  program.statements.foldl (addStatement options) frame

def helperImport? (options : Options) (helpers : Helpers) : Option (List Char) :=
  let names :=
    (if helpers.peek then [options.peekName] else []) ++
      (if helpers.adapter then [options.adapterName] else [])
  if names.isEmpty then none
  else some ("import \x7b " ++ ", ".intercalate names ++ " \x7d from \"" ++
    options.runtimeModule ++ "\";").toList

/-- The insertion of an import: behind the directives, or else behind the first line that addresses
the system, or else at the front. -/
def importEdit (program : Program) (text : List Char) : Edit :=
  match program.directives.getLast?, program.hashbang with
  | some d, _ => ⟨Span.point d.stop, '\n' :: text⟩
  | none, some h => ⟨Span.point h.stop, '\n' :: text⟩
  | none, none => ⟨Span.point 0, text ++ ['\n']⟩

/-- The reserved names and the naming of anonymous functions before a unit is read. -/
def named (options : Options) (source : List Char) : AnonymousFunction.Named × Names :=
  AnonymousFunction.nameAll source options.anonFnName
    (Names.ofReserved [options.adapterName, options.peekName])

/-- The setting of the whole unit. -/
def setting (options : Options) (frame : AliasFrame) (text : List Char) (names : Names) : Setting :=
  ⟨text, frame, options, names, []⟩

/-- The text of a unit with its edits made and the helpers imported. -/
def output (options : Options) (program : Program) (text : List Char)
    (edits : Draft (List Edit)) : List Char :=
  let recorded := EditList.ofEdits edits.value
  let recorded :=
    match options.injectRuntimeImport, helperImport? options (.ofGenerated edits.generated) with
    | true, some line =>
        let e := importEdit program line
        recorded.replace e.span e.text
    | _, _ => recorded
  recorded.spliceIn text ⟨0, Text.byteLength text⟩

/-- The transform of a unit on a fresh frame of aliases, and the frame as the unit fills it. -/
def onFrame (parse : Parser) (options : Options) (path : Option String) (source : List Char)
    (frame : AliasFrame) : Except TransformError (List Char) × AliasFrame :=
  let (prepared, names) := named options source
  match parse path prepared.text with
  | none => (.error (.malformed path), frame)
  | some program =>
      let frame := addAliases options program frame
      let edits := Rewrite.editsAll (setting options frame prepared.text names) program.statements
      if (EditList.ofEdits edits.value).isEmpty then (.ok source, frame)
      else (.ok (output options program prepared.text edits), frame)

end Transform

/-- A transformer: its options, and the frames of the units in flight. -/
structure Transformer where
  options : Options
  aliases : AliasStack
deriving DecidableEq, Repr

namespace Transformer

def ofOptions (options : Options) : Transformer := ⟨options, .empty⟩

def depth (t : Transformer) : Nat := t.aliases.depth

/-- Transform one unit; its path, if it has one, picks the dialect. -/
def transform (t : Transformer) (path : Option String) (source : List Char)
    (parse : Grammar.Parser := Grammar.Program.parser) :
    Except TransformError (List Char) × Transformer :=
  let (answer, aliases) := t.aliases.within (Transform.onFrame parse t.options path source)
  (answer, { t with aliases := aliases })

end Transformer

end FineGrain
