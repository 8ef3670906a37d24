import FineGrain.Files.System
/-!
What a command says about its files: one line for each, and a summary.
-/

namespace FineGrain.Command

/-- A source file: its path, its text, and what becomes of it. -/
structure SourceFile where
  path : String
  original : String
  output : String
deriving DecidableEq, Repr

def SourceFile.changed (file : SourceFile) : Bool := file.output != file.original

structure Progress where
  index : Nat
  total : Nat
deriving DecidableEq, Repr

namespace Progress

def first (total : Nat) : Progress := ⟨1, total⟩

def next (p : Progress) : Progress := { p with index := p.index + 1 }

def line (p : Progress) (rest : String) : String :=
  "[" ++ toString p.index ++ "/" ++ toString p.total ++ "] " ++ rest

end Progress

structure Summary where
  rewritten : Nat
  unchanged : Nat
  failed : Nat
deriving DecidableEq, Repr

namespace Summary

def ofFiles (files : List SourceFile) (failed : Nat) : Summary :=
  ⟨files.countP (·.changed), files.countP (!·.changed), failed⟩

def line (check : Bool) (s : Summary) : String :=
  let verb := if check then "would be rewritten" else "rewritten"
  "Summary: " ++ toString s.rewritten ++ " " ++ verb ++ ", " ++ toString s.unchanged ++
    " unchanged, " ++ toString s.failed ++ " errors"

/-- An empty line and the summary. -/
def print {m : Type → Type} [Monad m] (fs : FileSystem m) (check : Bool) (s : Summary) : m Unit := do
  fs.print ""
  fs.print (s.line check)

end Summary

end FineGrain.Command
