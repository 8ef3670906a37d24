import FineGrain.Files.Path
import FineGrain.Files.System
/-!
A file system in memory: directories, files and symbolic links, and a working directory at which
paths that are not absolute begin.
-/

namespace FineGrain

/-- What a file holds: text, or bytes that are no text. -/
inductive Content where
  | text (s : String)
  | bytes (b : List UInt8)
deriving DecidableEq, Repr, Inhabited

/-- A file, a symbolic link, or a directory with its entries. -/
inductive Tree where
  | file (content : Content)
  | link (target : String)
  | directory (entries : List (String × Tree))
deriving Repr, Inhabited

namespace Tree

abbrev Entries := List (String × Tree)

def get? (entries : Entries) (name : String) : Option Tree := entries.lookup name

/-- Put an entry in place of the one of that name, or behind the others. -/
def put (name : String) (t : Tree) : Entries → Entries
  | [] => [(name, t)]
  | (n, old) :: rest => if n == name then (n, t) :: rest else (n, old) :: put name t rest

/-- What is at a location, reached through directories alone. -/
def find? : Tree → List String → Option Tree
  | t, [] => some t
  | .directory entries, name :: rest => (get? entries name).bind (find? · rest)
  | _, _ :: _ => none

/-- Change the directory at a location; anything else stays as it is. -/
def changeAt (f : Entries → Entries) : List String → Tree → Tree
  | [], .directory entries => .directory (f entries)
  | name :: rest, .directory entries =>
      match get? entries name with
      | some t => .directory (put name (changeAt f rest t) entries)
      | none => .directory entries
  | _, t => t

def place (t : Tree) (location : List String) (item : Tree) : Tree :=
  match location.getLast? with
  | some name => changeAt (put name item) location.dropLast t
  | none => t

def removeAt (t : Tree) (location : List String) : Tree :=
  match location.getLast? with
  | some name => changeAt (fun entries => entries.filter (·.1 != name)) location.dropLast t
  | none => t

end Tree

/-- A disk, the location of its working directory, and what has been written to the two output
streams. -/
structure Disk where
  root : Tree
  working : List String
  output : String
  errors : String
deriving Repr, Inhabited

namespace Disk

def ofRoot (root : Tree) (working : List String) : Disk := ⟨root, working, "", ""⟩

/-- The longest name that a directory entry can have, in bytes. -/
def longestName : Nat := 255

/-- The longest path that can be asked for, in bytes. -/
def longestPath : Nat := 4095

/-- How many links may be followed on the way to one place. -/
def mostLinks : Nat := 40

/-- Where a path leads: the location, and what is there. Nothing is there when only the last step is
missing. -/
structure Found where
  location : List String
  item : Option Tree

/-- Where a path that is met at a location begins. -/
def start (location : List String) (path : String) : List String :=
  if Path.isAbsolute path then [] else location

/-- Walk from a location along the pieces of a path. `links` more links may be followed, and a link
at the end only if `follow` says so. -/
def walk (root : Tree) (follow : Bool) : Nat → Nat → List String → List String →
    Except FileError Found
  | 0, _, _, _ => .error .tooManyLinks
  | _ + 1, _, location, [] => .ok ⟨location, root.find? location⟩
  | n + 1, links, location, piece :: rest =>
      match root.find? location with
      | some (.directory _) =>
          if piece == "" || piece == "." then walk root follow n links location rest
          else if piece == ".." then walk root follow n links location.dropLast rest
          else if longestName < piece.utf8ByteSize then .error .nameTooLong
          else
            let here := location ++ [piece]
            match root.find? here with
            | none => if rest.isEmpty then .ok ⟨here, none⟩ else .error .notFound
            | some (.link target) =>
                if rest.isEmpty && !follow then .ok ⟨here, some (.link target)⟩
                else
                  match links with
                  | 0 => .error .tooManyLinks
                  | links + 1 =>
                      if target == "" then .error .notFound
                      else walk root follow n links (start location target)
                        (Path.pieces target ++ rest)
            | some _ => walk root follow n links here rest
      | _ => .error .notDirectory

def resolve (d : Disk) (follow : Bool) (path : String) : Except FileError Found :=
  if path == "" then .error .notFound
  else if longestPath < path.utf8ByteSize then .error .nameTooLong
  else
    let steps := (mostLinks + 1) * (longestPath + 1)
    walk d.root follow steps mostLinks (start d.working path) (Path.pieces path)

/-- What a path leads to, links followed. -/
def item? (d : Disk) (path : String) : Option Tree :=
  match d.resolve true path with
  | .ok found => found.item
  | .error _ => none

def isFile (d : Disk) (path : String) : Bool :=
  match d.item? path with
  | some (.file _) => true
  | _ => false

def isDirectory (d : Disk) (path : String) : Bool :=
  match d.item? path with
  | some (.directory _) => true
  | _ => false

def isLink (d : Disk) (path : String) : Bool :=
  match d.resolve false path with
  | .ok ⟨_, some (.link _)⟩ => true
  | _ => false

def realPath? (d : Disk) (path : String) : Option String :=
  match d.resolve true path with
  | .ok ⟨location, some _⟩ => some ("/" ++ "/".intercalate location)
  | _ => none

def entries (d : Disk) (path : String) : List String :=
  match d.item? path with
  | some (.directory entries) => entries.map (·.1)
  | _ => []

def read (d : Disk) (path : String) : Except FileError String := do
  match (← d.resolve true path).item with
  | some (.file (.text s)) => .ok s
  | some (.file (.bytes _)) => .error .notText
  | some _ => .error .isDirectory
  | none => .error .notFound

def putAt (d : Disk) (location : List String) (item : Tree) : Disk :=
  { d with root := d.root.place location item }

def writeContent (d : Disk) (path : String) (content : Content) : Except FileError Disk := do
  let found ← d.resolve true path
  match found.item with
  | some (.directory _) => .error .isDirectory
  | _ => .ok (d.putAt found.location (.file content))

def move (d : Disk) (source target : String) : Except FileError Disk := do
  let a ← d.resolve false source
  let b ← d.resolve false target
  match a.item, b.item with
  | none, _ => .error .notFound
  | some _, some (.directory _) => .error .isDirectory
  | some item, _ => .ok ({ d with root := d.root.removeAt a.location }.putAt b.location item)

def remove (d : Disk) (path : String) : Except FileError Disk := do
  let found ← d.resolve false path
  match found.item with
  | none => .error .notFound
  | some (.directory _) => .error .isDirectory
  | some _ => .ok { d with root := d.root.removeAt found.location }

/-- Make something new where nothing is: a directory or a link. -/
def make (d : Disk) (path : String) (item : Tree) : Except FileError Disk := do
  let found ← d.resolve false path
  match found.item with
  | none => .ok (d.putAt found.location item)
  | some _ => .error .exists

/-- An operation on a disk that can fail; a failed one changes nothing. -/
def attempt (act : Disk → Except FileError Disk) : StateM Disk (Except FileError Unit) := do
  match act (← get) with
  | .ok d => do
      set d
      return .ok ()
  | .error e => return .error e

/-- The file system that a disk is. -/
def fileSystem : FileSystem (StateM Disk) where
  isFile path := do return (← get).isFile path
  isDirectory path := do return (← get).isDirectory path
  isLink path := do return (← get).isLink path
  realPath? path := do return (← get).realPath? path
  entries path := do return (← get).entries path
  read path := do return (← get).read path
  write path text := attempt (·.writeContent path (.text text))
  move source target := attempt (·.move source target)
  remove path := attempt (·.remove path)
  restoreMode path := attempt fun d => do
    match (← d.resolve true path).item with
    | some _ => .ok d
    | none => .error .notFound
  makeDirectory path := attempt (·.make path (.directory []))
  print line := modify fun d => { d with output := d.output ++ line ++ "\n" }
  complain line := modify fun d => { d with errors := d.errors ++ line ++ "\n" }

end Disk

end FineGrain
