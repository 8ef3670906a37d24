/-!
What a command needs of a file system, whichever it is.
-/

namespace FineGrain

inductive FileError where
  | notFound
  | exists
  | notDirectory
  | isDirectory
  | nameTooLong
  | tooManyLinks
  | notText
  | other (message : String)
deriving DecidableEq, Repr, Inhabited

namespace FileError

def message : FileError → String
  | notFound => "No such file or directory (os error 2)"
  | .exists => "File exists (os error 17)"
  | notDirectory => "Not a directory (os error 20)"
  | isDirectory => "Is a directory (os error 21)"
  | nameTooLong => "File name too long (os error 36)"
  | tooManyLinks => "Too many levels of symbolic links (os error 40)"
  | notText => "stream did not contain valid UTF-8"
  | other message => message

end FileError

/-- A file system and the two output streams, as a command sees them.

* `isFile`, `isDirectory`: what a path leads to, links followed; `isLink`: whether it is a link itself
* `realPath?`: the one path without links that leads to the same place
* `entries`: the names in a directory
* `read`, `write`: the whole text of a file, links followed; `write` makes the file if need be
* `move`: put a file in the place of another; `remove`: remove a file
* `restoreMode`: give a file the permissions that its predecessor had
* `makeDirectory`: make one directory
* `print`, `complain`: a line to the output or the error stream -/
structure FileSystem (m : Type → Type) where
  isFile : String → m Bool
  isDirectory : String → m Bool
  isLink : String → m Bool
  realPath? : String → m (Option String)
  entries : String → m (List String)
  read : String → m (Except FileError String)
  write : String → String → m (Except FileError Unit)
  move : String → String → m (Except FileError Unit)
  remove : String → m (Except FileError Unit)
  restoreMode : String → m (Except FileError Unit)
  makeDirectory : String → m (Except FileError Unit)
  print : String → m Unit
  complain : String → m Unit

end FineGrain
