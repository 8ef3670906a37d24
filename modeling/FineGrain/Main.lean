import FineGrain.Command.Run
/-!
The program: the command on the files of the system.
-/

namespace FineGrain

/-- The number and the text of a failure that the system reports. The number may be negated. -/
def systemError? : IO.Error → Option (UInt32 × String)
  | .alreadyExists _ code details | .invalidArgument _ code details
  | .permissionDenied _ code details | .resourceExhausted _ code details
  | .inappropriateType _ code details | .noSuchThing _ code details
  | .interrupted _ code details | .noFileOrDirectory _ code details
  | .otherError code details | .resourceBusy code details | .resourceVanished code details
  | .unsupportedOperation code details | .hardwareFault code details
  | .unsatisfiedConstraints code details | .illegalOperation code details
  | .protocolError code details | .timeExpired code details => some (code, details)
  | .unexpectedEof | .userError _ => none

def FileError.ofSystem (e : IO.Error) : FileError :=
  match systemError? e with
  | none => .other (toString e)
  | some (code, details) =>
      let number := if code < 0x80000000 then code else -code
      match number.toNat with
      | 2 => .notFound
      | 17 => .exists
      | 20 => .notDirectory
      | 21 => .isDirectory
      | 36 => .nameTooLong
      | 40 => .tooManyLinks
      | n => .other (details ++ " (os error " ++ toString n ++ ")")

def attemptOnSystem (act : IO α) : IO (Except FileError α) := do
  try
    return .ok (← act)
  catch e => return .error (.ofSystem e)

/-- What the system knows of a path; `follow` says whether a link counts as what it leads to. -/
def kindOf? (follow : Bool) (path : String) : IO (Option IO.FS.FileType) := do
  try
    let place := (← IO.currentDir) / path
    let known ← if follow then place.metadata else place.symlinkMetadata
    return some known.type
  catch _ => return none

def entriesOnSystem (path : String) : IO (List String) := do
  try
    let place := (← IO.currentDir) / path
    return ((← place.readDir).map (·.fileName)).toList
  catch _ => return []

def readOnSystem (path : String) : IO (Except FileError String) := do
  match ← attemptOnSystem (IO.FS.readBinFile path) with
  | .error e => return .error e
  | .ok bytes =>
      match String.fromUTF8? bytes with
      | some text => return .ok text
      | none => return .error .notText

/-- The name under which a file is kept while another one takes its place. -/
def keptPath (path : String) : String := path ++ ".reactant-kept"

/-- Keep a file under a second name, and answer whether that was done. The permissions of a file cannot
be read here, but they go with it. What has further names already would change under those as well. -/
def keepOnSystem (path : String) : IO Bool := do
  try
    let known ← ((← IO.currentDir) / path).symlinkMetadata
    if known.type == .file && known.numLinks == 1 then
      IO.FS.hardLink path (keptPath path)
      return true
    else return false
  catch _ => return false

def moveOnSystem (kept : IO.Ref Bool) (source target : String) : IO (Except FileError Unit) := do
  kept.set (← keepOnSystem target)
  match ← attemptOnSystem (IO.FS.rename source target) with
  | .ok () => return .ok ()
  | .error e => do
      if ← kept.get then let _ ← attemptOnSystem (IO.FS.removeFile (keptPath target))
      return .error e

/-- Give the kept file its new text, and then its place back. A file that may not be written is left
with the permissions of a new one. -/
def restoreOnSystem (kept : IO.Ref Bool) (path : String) : IO (Except FileError Unit) := do
  if ← kept.get then
    try
      IO.FS.writeBinFile (keptPath path) (← IO.FS.readBinFile path)
      IO.FS.rename (keptPath path) path
    catch _ => let _ ← attemptOnSystem (IO.FS.removeFile (keptPath path))
  return .ok ()

/-- The files of the system; `kept` tells whether the last file that was moved has taken the place of
one that is kept. -/
def systemFiles (kept : IO.Ref Bool) : FileSystem IO where
  isFile path := do return (← kindOf? true path) == some .file
  isDirectory path := do return (← kindOf? true path) == some .dir
  isLink path := do return (← kindOf? false path) == some .symlink
  realPath? path := do
    match ← attemptOnSystem (IO.FS.realPath path) with
    | .ok place => return some place.toString
    | .error _ => return none
  entries := entriesOnSystem
  read := readOnSystem
  write path text := attemptOnSystem (IO.FS.writeFile path text)
  move := moveOnSystem kept
  remove path := attemptOnSystem (IO.FS.removeFile path)
  restoreMode := restoreOnSystem kept
  makeDirectory path := attemptOnSystem (IO.FS.createDir path)
  print := IO.println
  complain := IO.eprintln

end FineGrain

def main (arguments : List String) : IO UInt32 := do
  let kept ← IO.mkRef false
  return (← FineGrain.Command.run (FineGrain.systemFiles kept) arguments).toUInt32
