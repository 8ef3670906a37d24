import FineGrain.Files.Path
/-!
Dialects of the source language, chosen by the extension of a unit's path.
-/

namespace FineGrain.Grammar

/-- What the grammar admits.

* `types`: type annotations and the declarations that go with them
* `markup`: elements written with angle brackets
* `script`: a script and not a module, so `await` is an ordinary name at the top level and the old
  comment marks count
* `ambient`: a declaration file, where constants need no value; its name may tell what is declared
  between the `d` and the last extension
-/
structure Dialect where
  types : Bool
  markup : Bool
  script : Bool
  ambient : Bool
deriving DecidableEq, Repr, Inhabited

namespace Dialect

/-- A module with markup and no types: what a unit without a telling extension holds. -/
def plain : Dialect := ⟨false, true, false, false⟩

def ofPath (path : String) : Dialect :=
  match Path.fileName? path with
  | none => plain
  | some name =>
      let parts := (name.splitOn ".").dropLast.reverse
      match Path.extensionOf? name with
      | some "cjs" => { plain with script := true }
      | some "ts" => ⟨true, false, false, (parts.take 2).contains "d"⟩
      | some "mts" => ⟨true, false, false, (parts.take 1).contains "d"⟩
      | some "cts" => ⟨true, false, true, (parts.take 1).contains "d"⟩
      | some "tsx" => ⟨true, true, false, false⟩
      | _ => plain

end Dialect

end FineGrain.Grammar
