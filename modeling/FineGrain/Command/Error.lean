import FineGrain.Files.System
/-!
Why a command fails, and how that is told.
-/

namespace FineGrain

inductive FileAction where
  | read | create | write
deriving DecidableEq, Repr

def FileAction.word : FileAction → String
  | read => "read"
  | create => "create"
  | write => "write"

inductive CommandError where
  | configuration
  | file (action : FileAction) (path : String) (error : FileError)
  | missingPath (path : String)
  | wouldRewrite (count : Nat)
  | failed (count : Nat)
deriving DecidableEq, Repr

namespace CommandError

def message : CommandError → String
  | configuration => "invalid transform configuration"
  | file action path error => "failed to " ++ action.word ++ " " ++ path ++ ": " ++ error.message
  | missingPath path => "path does not exist: " ++ path
  | wouldRewrite count => toString count ++ " file(s) would be rewritten"
  | failed count => toString count ++ " file(s) failed to transform; nothing was written"

end CommandError

end FineGrain
