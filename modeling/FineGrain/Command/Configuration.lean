import FineGrain.Command.Error
import FineGrain.Files.Path
import FineGrain.Options.Document
/-!
The configuration of a command: a file that is named, or the nearest one found upward from the path
as it is written, or else the usual options.
-/

namespace FineGrain.Command

def configurationName : String := "reactant.toml"

variable {m : Type → Type} [Monad m] (fs : FileSystem m)

/-- The directory of a path: the path itself unless it is a file. -/
def directoryOf? (path : String) : m (Option String) := do
  if ← fs.isFile path then return Path.parent? path
  else return some path

def firstConfiguration? : List String → m (Option String)
  | [] => return none
  | directory :: rest => do
      let path := Path.join directory configurationName
      if ← fs.isFile path then return some path
      else firstConfiguration? rest

def findConfiguration? (path : String) : m (Option String) := do
  match ← directoryOf? fs path with
  | none => return none
  | some directory => firstConfiguration? fs (Path.ancestors directory)

def readOptions (path : String) : ExceptT CommandError m Options := do
  match ← fs.read path with
  | .error e => throw (.file .read path e)
  | .ok text =>
      match Options.ofDocument? text.toList with
      | some options => return options
      | none => throw .configuration

def optionsFor (named : Option String) (path : String) : ExceptT CommandError m Options := do
  let configuration ←
    match named with
    | some configuration => pure (some configuration)
    | none => (findConfiguration? fs path : m _)
  match configuration with
  | some configuration => readOptions fs configuration
  | none => return {}

end FineGrain.Command
