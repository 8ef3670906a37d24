/-!
What a rewrite looks for and what it emits.
-/

namespace FineGrain

/-- Options of a rewrite.

* `sourceModules`: modules whose imports provide the element factory and the hooks
* `runtimeModule`: module that the injected helper import names
* `adapterName`: helper that turns a tag value into a component
* `peekName`: helper that reads a dependency without subscribing
* `tempTagName`: base name of the binding that holds an adapted tag
* `anonFnName`: base name of anonymous function literals
* `injectRuntimeImport`: whether to import the helpers that the output uses
-/
structure Options where
  sourceModules : List String := ["react"]
  runtimeModule : String := "reactant/runtime"
  adapterName : String := "__adapt"
  peekName : String := "__peek"
  tempTagName : String := "TempCls"
  anonFnName : String := "AnonFn"
  injectRuntimeImport : Bool := true
deriving DecidableEq, Repr, Inhabited

namespace Options

/-- Whether imports of `specifier` come from the framework. -/
def isSource (options : Options) (specifier : String) : Bool :=
  options.sourceModules.contains specifier

/-- Also look at imports of `specifier`. -/
def addSource (options : Options) (specifier : String) : Options :=
  if options.isSource specifier then options
  else { options with sourceModules := options.sourceModules ++ [specifier] }

/-- Name the module of the injected import. -/
def withRuntimeModule (options : Options) (specifier : String) : Options :=
  { options with runtimeModule := specifier }

def withHelperNames (options : Options) (adapter peek : String) : Options :=
  { options with adapterName := adapter, peekName := peek }

/-- Leave the import of the helpers to the caller. -/
def withoutImport (options : Options) : Options := { options with injectRuntimeImport := false }

end Options

end FineGrain
