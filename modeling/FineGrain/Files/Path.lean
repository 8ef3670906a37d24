/-!
Paths as they are written: names between slashes. Nothing here looks at any file. A single dot
between or behind other names does not count, nor does a slash at the end or a doubled one.
-/

namespace FineGrain.Path

/-- The pieces of a path between its slashes, empty ones included. -/
def pieces (path : String) : List String := (path.toList.splitOn '/').map String.ofList

def isAbsolute (path : String) : Bool := path.toList.head? == some '/'

/-- One component of a path; `here` is a dot at the front. -/
inductive Component where
  | root
  | here
  | up
  | name (name : String)
deriving DecidableEq, Repr, Inhabited

/-- The component that a piece behind the first one is. -/
def component? : String → Option Component
  | "" | "." => none
  | ".." => some .up
  | name => some (.name name)

def components (path : String) : List Component :=
  match pieces path with
  | [] => []
  | first :: rest =>
      let front :=
        if isAbsolute path then [.root]
        else if first == "." then [.here]
        else (component? first).toList
      front ++ rest.filterMap component?

def fileName? (path : String) : Option String :=
  match (components path).getLast? with
  | some (.name name) => some name
  | _ => none

/-- What follows the last dot of a file name; a leading dot alone makes no extension. -/
def extensionOf? (name : String) : Option String :=
  match name.toList.splitOn '.' with
  | [] | [_] | [[], _] => none
  | parts => (parts.getLast?).map String.ofList

def extension? (path : String) : Option String := (fileName? path).bind extensionOf?

/-- Pieces, last first, without the ones at the end that do not count. The first piece of a path
stays. -/
def trimmed : List String → List String
  | [] => []
  | [first] => [first]
  | piece :: rest => if piece == "" || piece == "." then trimmed rest else piece :: rest

/-- The path without its last component. The empty path and the root have no parent. -/
def parent? (path : String) : Option String :=
  match (components path).getLast? with
  | none | some .root => none
  | some _ =>
      let kept := trimmed (trimmed (pieces path).reverse).tail
      if kept == [""] && isAbsolute path then some "/"
      else some ("/".intercalate kept.reverse)

/-- At most `n` of a path and its ancestors. -/
def someAncestors : Nat → String → List String
  | 0, _ => []
  | n + 1, path =>
      path ::
        match parent? path with
        | some above => someAncestors n above
        | none => []

/-- A path, its parent, the parent of that, and so on. -/
def ancestors (path : String) : List String :=
  someAncestors ((components path).length + 1) path

def join (directory path : String) : String :=
  if isAbsolute path then path
  else
    match directory.toList.getLast? with
    | none | some '/' => directory ++ path
    | some _ => directory ++ "/" ++ path

/-- The path with another file name in place of its own. -/
def withFileName (path name : String) : String :=
  match fileName? path with
  | some _ => join ((parent? path).getD "") name
  | none => join path name

def dropPrefix? [DecidableEq α] : List α → List α → Option (List α)
  | [], l => some l
  | _ :: _, [] => none
  | a :: as, b :: bs => if a = b then dropPrefix? as bs else none

def Component.text : Component → String
  | .root => "/"
  | .here => "."
  | .up => ".."
  | .name n => n

/-- The rest of a path behind one that it begins with, component by component. -/
def relativeTo? (path base : String) : Option String :=
  (dropPrefix? (components base) (components path)).map fun rest =>
    "/".intercalate (rest.map Component.text)

/-- The place of a kind of component in the order of paths. -/
def Component.rank : Component → Nat
  | .root => 0
  | .here => 1
  | .up => 2
  | .name _ => 3

def Component.le (a b : Component) : Bool :=
  match a, b with
  | .name x, .name y => x ≤ y
  | a, b => a.rank ≤ b.rank

/-- The order of paths: by the first component in which they differ; a path comes before what is
below it. -/
def listLe : List Component → List Component → Bool
  | [], _ => true
  | _ :: _, [] => false
  | a :: as, b :: bs => if a = b then listLe as bs else a.le b

def le (a b : String) : Bool := listLe (components a) (components b)

end FineGrain.Path
