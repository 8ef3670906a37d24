import FineGrain.Alias
import FineGrain.Grammar.Node
import FineGrain.Lexical.Free
import FineGrain.Names
import FineGrain.Options
import FineGrain.Text.Edit
/-!
What surrounds the code being rewritten, and what can be told of a tree from it: which calls are
element factories and effect hooks, which tag an element has, which names an effect callback copies.
-/

namespace FineGrain

open Grammar Lexical

/-- What surrounds the code being rewritten.

* `text`: the unit; `frame`: the names under which it imports the framework
* `names`: the generated names that are visible
* `renames`: the references that read a copy, by their offset, innermost first -/
structure Setting where
  text : List Char
  frame : AliasFrame
  options : Options
  names : Names
  renames : List (Nat × String)
deriving DecidableEq, Repr

/-- What an element is called: a name to write, nothing for a fragment, or a value that only the
running program knows. -/
inductive Tag where
  | name (name : String)
  | fragment
  | dynamic
deriving DecidableEq, Repr

/-- A copy of a variable: its name, what it is copied from, and the references that read it. -/
structure Snapshot where
  copy : String
  source : String
  starts : List Nat
deriving DecidableEq, Repr

namespace Setting

/-- The copy that the reference at an offset reads. -/
def rename? (s : Setting) (start : Nat) : Option String :=
  (s.renames.find? (·.1 == start)).map (·.2)

def slice (s : Setting) (span : Span) : List Char := Text.slice s.text span

/-- The text of `span` with some edits made in it. -/
def spliced (s : Setting) (span : Span) (edits : List Edit) : List Char :=
  (EditList.ofEdits edits).spliceIn s.text span

/-- The property that an expression reads of a framework root. -/
def rootMember? (s : Setting) : Node → Option String
  | .mk (.member property) _ [object] =>
      match object.label with
      | .reference name => if s.frame.has .root name then some property else none
      | _ => none
  | _ => none

def effectHooks : List String := ["useEffect", "useLayoutEffect", "useInsertionEffect"]

/-- Whether a call of `callee` makes an element. -/
def isFactory (s : Setting) (callee : Node) : Bool :=
  match callee.label with
  | .reference name => s.frame.has .factory name
  | _ => s.rootMember? callee == some "createElement"

/-- Whether a call of `callee` registers an effect. -/
def isEffect (s : Setting) (callee : Node) : Bool :=
  match callee.label with
  | .reference name => s.frame.has .effect name
  | _ => (s.rootMember? callee).any effectHooks.contains

def startsLowercase (name : String) : Bool := name.toList.head?.any Char.isLower

/-- Whether markup also takes `name` for a tag of the platform. -/
def isNativeTag (name : String) : Bool :=
  startsLowercase name && name.toList.all fun c => c.isAlphanum || c == '-' || c == ':'

def tag (s : Setting) (e : Node) : Tag :=
  match e.inner with
  | .mk (.string value) _ _ => if isNativeTag value then .name value else .dynamic
  | .mk (.reference name) span _ =>
      if s.frame.has .fragment name then .fragment
      else if startsLowercase name then .dynamic
      else .name ((s.rename? span.start).getD name)
  | n => if s.rootMember? n == some "Fragment" then .fragment else .dynamic

/-- The variables that an effect callback copies. Names of the framework stay as they are. -/
def copiedVariables (s : Setting) (callback : Node) : List FreeVariable :=
  (freeVariables callback).filter fun v => !s.frame.isAlias v.name

/-- Name a copy of each variable, for use inside `visible`. A copy made outside is copied again
under its own name. -/
def snapshots (s : Setting) (visible : List Char) :
    List FreeVariable → Names → List Snapshot × Names
  | [], names => ([], names)
  | v :: rest, names =>
      let (copy, names) := names.allocate v.name visible
      let source := (v.starts.head?.bind s.rename?).getD v.name
      let (more, names) := s.snapshots visible rest names
      (⟨copy, source, v.starts⟩ :: more, names)

/-- The setting inside a callback whose variables are copied. -/
def copying (s : Setting) (copies : List Snapshot) (names : Names) : Setting :=
  { s with
    names := names
    renames := copies.flatMap (fun c => c.starts.map (·, c.copy)) ++ s.renames }

/-- The statements that make the copies. -/
def declarations (s : Setting) (copies : List Snapshot) : List Char :=
  (" ".intercalate (copies.map fun c =>
    "const " ++ c.copy ++ " = " ++ s.options.peekName ++ "(" ++ c.source ++ ");")).toList

/-- Whether `c` is the character at a byte offset. -/
def hasAt (s : Setting) (offset : Nat) (c : Char) : Bool :=
  ((Text.dropBytes offset s.text).bind (·.head?)) == some c

/-- Where statements go at the top of a function body: behind the directives, which may lack the
semicolon at their end. Answers the offset and what has to go first. -/
def bodyTop (s : Setting) (directives : List Span) (body : Span) : Nat × List Char :=
  match directives.getLast? with
  | none => (body.start + 1, [' '])
  | some d =>
      if s.hasAt d.stop ';' then (d.stop + 1, [' '])
      else if s.hasAt (d.stop - 1) ';' then (d.stop, [' '])
      else (d.stop, [';', ' '])

end Setting

end FineGrain
