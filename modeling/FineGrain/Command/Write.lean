import FineGrain.Command.Error
import FineGrain.Command.Report
import FineGrain.Files.Path
/-!
Writing what a command has made: in place, where a failure puts back what was written before it, or
to a mirrored tree.
-/

namespace FineGrain.Command

variable {m : Type → Type} [Monad m] (fs : FileSystem m)

/-- The path beside a file where its new text is written first. -/
def draftPath (path : String) : String :=
  Path.withFileName path ((Path.fileName? path).getD "" ++ ".reactant-tmp")

/-- Give a file a new text: write it beside the file, then move it over the file, so that at no time
the file holds a part of the text. -/
def replaceText (path text : String) : m (Except FileError Unit) := do
  let known ← fs.realPath? path
  match ← fs.write (draftPath path) text with
  | .error e => return .error e
  | .ok () =>
      match ← fs.move (draftPath path) path with
      | .error e => do
          let _ ← fs.remove (draftPath path)
          return .error e
      | .ok () => if known.isSome then fs.restoreMode path else return .ok ()

/-- Give files their original texts back, and answer those that could not be. -/
def rollBack : List SourceFile → m (List (String × FileError))
  | [] => return []
  | file :: rest => do
      let outcome ← replaceText fs file.path file.original
      let failures ← rollBack rest
      match outcome with
      | .ok () => return failures
      | .error e => return (file.path, e) :: failures

/-- Tell of the files that could not be rolled back, if there are any. -/
def complainOf (failures : List (String × FileError)) : m Unit := do
  if !failures.isEmpty then
    fs.complain ("Warning: " ++ toString failures.length ++ " file(s) could not be rolled back:")
    failures.forM fun (path, e) => fs.complain ("  - " ++ path ++ ": " ++ e.message)

/-- Rewrite the changed files where they are. `written` holds those done, the last one first. -/
def writeInPlace : List SourceFile → Progress → List SourceFile → ExceptT CommandError m Unit
  | _, _, [] => return ()
  | written, progress, file :: rest => do
      if file.changed then
        match ← (replaceText fs file.path file.output : m _) with
        | .ok () =>
            fs.print (progress.line ("Rewritten: " ++ file.path))
            writeInPlace (file :: written) progress.next rest
        | .error e =>
            let failures ← (rollBack fs written : m _)
            (complainOf fs failures : m _)
            throw (.file .write file.path e)
      else
        fs.print (progress.line ("Unchanged: " ++ file.path))
        writeInPlace written progress.next rest

/-- Make the first of a list of directories, each of which lies in the next. -/
def makeDirectories : List String → m (Except FileError Unit)
  | [] => return .ok ()
  | directory :: above =>
      if directory == "" then return .ok ()
      else do
        match ← fs.makeDirectory directory with
        | .ok () => return .ok ()
        | .error .notFound =>
            match ← makeDirectories above with
            | .error e => return .error e
            | .ok () => settle directory (← fs.makeDirectory directory)
        | outcome => settle directory outcome
where
  /-- A directory that could not be made may be there already. -/
  settle (directory : String) : Except FileError Unit → m (Except FileError Unit)
    | .ok () => return .ok ()
    | .error e => do
        if ← fs.isDirectory directory then return .ok ()
        else return .error e

/-- The place of a file in a mirrored tree: where it is relative to the directory that is mirrored. -/
def mirrored (base outDir path : String) : String :=
  Path.join outDir ((Path.relativeTo? path base).getD ((Path.fileName? path).getD ""))

/-- The directory that is mirrored for a path: its own, if it is a file. -/
def mirrorBase (root : String) : m String := do
  if ← fs.isFile root then return (Path.parent? root).getD root
  else return root

/-- Write one file, with the directories that it lies in. -/
def writeWithParents (path text : String) : ExceptT CommandError m Unit := do
  match Path.parent? path with
  | none => pure ()
  | some parent =>
      match ← (makeDirectories fs (Path.ancestors parent) : m _) with
      | .ok () => pure ()
      | .error e => throw (.file .create parent e)
  match ← fs.write path text with
  | .ok () => return ()
  | .error e => throw (.file .write path e)

/-- Write all files, changed or not, to a mirrored tree. -/
def writeMirror (root outDir : String) : Progress → List SourceFile → ExceptT CommandError m Unit
  | _, [] => return ()
  | progress, file :: rest => do
      let base ← (mirrorBase fs root : m _)
      let destination := mirrored base outDir file.path
      writeWithParents fs destination file.output
      let word := if file.changed then "Rewritten: " else "Copied: "
      fs.print (progress.line (word ++ destination))
      writeMirror root outDir progress.next rest

end FineGrain.Command
