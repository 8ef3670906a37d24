import FineGrain.Options
import FineGrain.Toml.Document
/-!
Options read from a TOML document. A key that is no option is ignored; an option with a value of the
wrong type is refused.
-/

namespace FineGrain.Options

open Toml

def string? : Item → Option String
  | .string value => some value
  | _ => none

def strings? : Item → Option (List String)
  | .array items => items.mapM string?
  | _ => none

def boolean? : Item → Option Bool
  | .boolean value => some value
  | _ => none

def set? (options : Options) (entry : String × Item) : Option Options :=
  let (key, item) := entry
  match key with
  | "source_modules" => (strings? item).map fun v => { options with sourceModules := v }
  | "runtime_module" => (string? item).map fun v => { options with runtimeModule := v }
  | "adapter_name" => (string? item).map fun v => { options with adapterName := v }
  | "peek_name" => (string? item).map fun v => { options with peekName := v }
  | "temp_tag_name" => (string? item).map fun v => { options with tempTagName := v }
  | "anon_fn_name" => (string? item).map fun v => { options with anonFnName := v }
  | "inject_runtime_import" => (boolean? item).map fun v => { options with injectRuntimeImport := v }
  | _ => some options

/-- The options that a document spells, starting from the usual ones. -/
def ofDocument? (text : List Char) : Option Options := do
  let entries ← Toml.parse? text
  entries.foldlM set? {}

end FineGrain.Options
