/-!
The arguments of the command line. Options may stand in any order; what follows two dashes alone is
no option.
-/

namespace FineGrain.Command

/-- What a transform is asked for.

* `path`: the file or directory; `check`: report what would change and write nothing
* `outDir`: write to a mirrored tree; `config`: the configuration to use -/
structure Request where
  path : String
  check : Bool
  outDir : Option String
  config : Option String
deriving DecidableEq, Repr, Inhabited

inductive Asked where
  | transform (request : Request)
  | version
  | help
deriving DecidableEq, Repr

/-- What has been read of a transform's arguments. -/
structure Gathered where
  path : Option String
  check : Bool
  outDir : Option String
  config : Option String
deriving DecidableEq, Repr

def Gathered.none : Gathered := ⟨Option.none, false, Option.none, Option.none⟩

/-- Whether an argument is an option and not a value. A dash alone is a value. -/
def isOption (argument : String) : Bool :=
  match argument.toList with
  | '-' :: _ :: _ => true
  | _ => false

/-- Take a positional argument: the path, which is given once and is not empty. -/
def Gathered.addPath? (g : Gathered) (path : String) : Option Gathered :=
  if g.path.isSome || path == "" then Option.none else some { g with path := some path }

def Gathered.addOutDir? (g : Gathered) (value : String) : Option Gathered :=
  if g.outDir.isSome || value == "" then Option.none else some { g with outDir := some value }

def Gathered.addConfig? (g : Gathered) (value : String) : Option Gathered :=
  if g.config.isSome || value == "" then Option.none else some { g with config := some value }

/-- The value behind the equals sign of a long option. -/
def valueOf? (option argument : String) : Option String :=
  let start := option ++ "="
  if argument.startsWith start then some (String.ofList (argument.toList.drop start.length))
  else Option.none

/-- What a bundle of one-letter options asks for; only the verbosity may be bundled. -/
inductive Bundle where
  | verbosity | help | version | wrong
deriving DecidableEq, Repr

/-- The first letter of a bundle that is not the verbosity decides. -/
def bundle (version : Bool) : List Char → Bundle
  | [] => .verbosity
  | 'v' :: rest => bundle version rest
  | 'h' :: _ => .help
  | 'V' :: _ => if version then .version else .wrong
  | _ => .wrong

/-- A request is complete with its path; a check writes nothing, so it has no place to write to. -/
def Gathered.finish? (g : Gathered) : Option Asked :=
  match g.path, g.check, g.outDir with
  | some _, true, some _ => Option.none
  | some path, check, outDir => some (.transform ⟨path, check, outDir, g.config⟩)
  | Option.none, _, _ => Option.none

/-- Positional arguments only. -/
def addPaths? : Gathered → List String → Option Gathered
  | g, [] => some g
  | g, path :: rest => (g.addPath? path).bind (addPaths? · rest)

def transform? : Gathered → List String → Option Asked
  | g, [] => g.finish?
  | g, "--" :: rest => (addPaths? g rest).bind Gathered.finish?
  | g, "--verbose" :: rest => transform? g rest
  | _, "--help" :: _ => some .help
  | g, "--check" :: rest => if g.check then Option.none else transform? { g with check := true } rest
  | _, ["--out-dir"] | _, ["--config"] => Option.none
  | g, "--out-dir" :: value :: rest =>
      if isOption value then Option.none else (g.addOutDir? value).bind (transform? · rest)
  | g, "--config" :: value :: rest =>
      if isOption value then Option.none else (g.addConfig? value).bind (transform? · rest)
  | g, argument :: rest =>
      match valueOf? "--out-dir" argument, valueOf? "--config" argument with
      | some value, _ => (g.addOutDir? value).bind (transform? · rest)
      | Option.none, some value => (g.addConfig? value).bind (transform? · rest)
      | Option.none, Option.none =>
          if !isOption argument then (g.addPath? argument).bind (transform? · rest)
          else if argument.startsWith "--" then Option.none
          else
            match bundle false (argument.toList.drop 1) with
            | .verbosity => transform? g rest
            | .help => some .help
            | .version | .wrong => Option.none

/-- Read all arguments; `none` when they are not well formed. -/
def asked? : List String → Option Asked
  | [] => Option.none
  | "transform" :: rest => transform? .none rest
  | ["help"] | ["help", "help"] | ["help", "transform"] | "--help" :: _ => some .help
  | "--version" :: _ => some .version
  | "--verbose" :: rest => asked? rest
  | argument :: rest =>
      if !isOption argument || argument.startsWith "--" then Option.none
      else
        match bundle true (argument.toList.drop 1) with
        | .verbosity => asked? rest
        | .help => some .help
        | .version => some .version
        | .wrong => Option.none

end FineGrain.Command
