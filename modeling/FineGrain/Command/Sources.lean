import FineGrain.Command.Error
import FineGrain.Files.Path
/-!
The source files at a path: the file itself, or those below the directory in the order of their
paths. Directories that hold what others made are left out, and a link is followed unless it leads
back to a directory that is being looked through.
-/

namespace FineGrain.Command

def sourceExtensions : List String := ["js", "jsx", "mjs", "cjs", "ts", "tsx"]

/-- Directories that are not looked into, unless one is asked for by its own path. -/
def skippedNames : List String := ["node_modules", ".git", "target", "dist"]

/-- Whether a path names a source file. A declaration file is none. -/
def isSource (path : String) : Bool :=
  match Path.fileName? path with
  | none => false
  | some name =>
      !".d.ts".toList.isSuffixOf name.toList &&
        ((Path.extensionOf? name).map sourceExtensions.contains).getD false

/-- How deep directories can lie: each takes two bytes of a path of less than 4096. -/
def deepest : Nat := 2048

variable {m : Type → Type} [Monad m] (fs : FileSystem m)

/-- Whether a directory is one of those above it, come back to by a link. -/
def leadsBack (above : List String) (directory : String) : m Bool := do
  if ← fs.isLink directory then
    let place ← fs.realPath? directory
    let places ← above.mapM fs.realPath?
    return places.contains place
  else return false

/-- The source files below a directory, in no particular order. `above` holds the directory and
those that it was reached through. -/
def sourcesBelow : Nat → List String → String → m (List String)
  | 0, _, _ => pure []
  | n + 1, above, directory => do
      let found ← (← fs.entries directory).mapM fun name => do
        let path := Path.join directory name
        if ← fs.isDirectory path then
          if skippedNames.contains name then pure []
          else if ← leadsBack fs above path then pure []
          else sourcesBelow n (path :: above) path
        else if ← fs.isFile path then
          pure (if isSource path then [path] else [])
        else pure []
      return found.flatten

def sources (path : String) : ExceptT CommandError m (List String) := do
  if ← fs.isFile path then
    return if isSource path then [path] else []
  else if ← fs.isDirectory path then
    let found : List String ← (sourcesBelow fs deepest [path] path : m _)
    return found.mergeSort Path.le
  else throw (.missingPath path)

end FineGrain.Command
