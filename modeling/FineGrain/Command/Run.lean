import FineGrain.Command.Arguments
import FineGrain.Command.Configuration
import FineGrain.Command.Sources
import FineGrain.Command.Write
import FineGrain.Transform
/-!
The command: transform every file first, and write only when all of them could be.
-/

namespace FineGrain.Command

def versionLine : String := "reactant 0.1.0-alpha.1"

def usage : String :=
  "Usage: reactant [-v...] transform [--check | --out-dir <DIR>] [--config <FILE>] <PATH>"

variable {m : Type → Type} [Monad m] (fs : FileSystem m) (parse : Grammar.Parser)

/-- Transform files one after the other, and answer those that could be, with the number of those
that could not. -/
def transformAll (check : Bool) : Transformer → Progress → List String →
    ExceptT CommandError m (List SourceFile × Nat)
  | _, _, [] => return ([], 0)
  | transformer, progress, path :: rest => do
      match ← fs.read path with
      | .error e => throw (.file .read path e)
      | .ok text =>
          let (answer, transformer) := transformer.transform (some path) text.toList parse
          match answer with
          | .ok output =>
              let file : SourceFile := ⟨path, text, String.ofList output⟩
              if check && file.changed then
                fs.print (progress.line ("Would rewrite: " ++ path))
              let (files, failed) ← transformAll check transformer progress.next rest
              return (file :: files, failed)
          | .error e =>
              fs.complain (progress.line ("Error " ++ e.message))
              let (files, failed) ← transformAll check transformer progress.next rest
              return (files, failed + 1)

/-- Write the files that have been transformed, or tell why nothing is written. -/
def conclude (request : Request) (files : List SourceFile) (failed : Nat) :
    ExceptT CommandError m Unit := do
  let summary := Summary.ofFiles files failed
  if 0 < failed then
    (summary.print fs request.check : m _)
    throw (.failed failed)
  else if request.check then
    (summary.print fs true : m _)
    if 0 < summary.rewritten then throw (.wouldRewrite summary.rewritten)
  else
    let progress := Progress.first files.length
    match request.outDir with
    | some outDir => writeMirror fs request.path outDir progress files
    | none => writeInPlace fs [] progress files
    (summary.print fs false : m _)

/-- Do what a request asks for. -/
def transform (request : Request) : ExceptT CommandError m Unit := do
  let options ← optionsFor fs request.config request.path
  let paths ← sources fs request.path
  if paths.isEmpty then
    fs.print ("No source files found in " ++ request.path)
  else
    let (files, failed) ←
      transformAll fs parse request.check (.ofOptions options) (.first paths.length) paths
    conclude fs request files failed

/-- Run a command line and answer the exit code: one for a failure, two for bad arguments. -/
def run (arguments : List String) (parse : Grammar.Parser := Grammar.Program.parser) : m Nat := do
  match asked? arguments with
  | none => do
      fs.complain usage
      return 2
  | some .help => do
      fs.print usage
      return 0
  | some .version => do
      fs.print versionLine
      return 0
  | some (.transform request) =>
      match ← (transform fs parse request).run with
      | .ok _ => return 0
      | .error e => do
          fs.complain ("Error: " ++ e.message)
          return 1

end FineGrain.Command
