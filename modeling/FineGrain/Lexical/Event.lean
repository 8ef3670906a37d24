import FineGrain.Grammar.Node
/-!
What a syntax tree says about names, in the order in which it is written: scopes that open and
close, names that are declared, read and assigned to.
-/

namespace FineGrain.Lexical

open Grammar

/-- One thing said about names.

* `enter`: a scope opens; whether it is the scope of a function
* `leave`: the innermost scope closes
* `hoisting`: whether the declarations that follow belong to the enclosing function
* `declare`, `assign`: a name is declared, assigned to
* `reference`: a name is read at an offset -/
inductive Event where
  | enter (isFunction : Bool)
  | leave
  | hoisting (on : Bool)
  | declare (name : String)
  | reference (name : String) (start : Nat)
  | assign (name : String)
deriving DecidableEq, Repr

/-- What is said inside a scope of its own. -/
def enclosed (isFunction : Bool) (inside : List Event) : List Event :=
  .enter isFunction :: inside ++ [.leave]

/-- A declared function binds its name around itself too. -/
def declareOuter (role : Role) (parts : List Node) : List Event :=
  match role, parts with
  | .declaration, .mk (.binding name) _ _ :: _ => [.declare name]
  | _, _ => []

mutual

/-- What a tree says about names. -/
def events : Node → List Event
  | .mk label span parts =>
      match label with
      | .reference name => [.reference name span.start]
      | .binding name => [.declare name]
      | .target name => [.assign name]
      | .targetShorthand name => .assign name :: eventsAll parts
      | .declarator kind => .hoisting (kind == .var) :: declaratorEvents parts
      | .function role => declareOuter role parts ++ enclosed true (eventsAll parts)
      | .arrow _ => enclosed true (eventsAll parts)
      | .classScope | .staticBlock | .block | .loop | .cases | .catch | .typeScope =>
          enclosed false (eventsAll parts)
      | _ => eventsAll parts

def eventsAll : List Node → List Event
  | [] => []
  | n :: rest => events n ++ eventsAll rest

/-- The parts of a declarator: only the pattern is hoisted. -/
def declaratorEvents : List Node → List Event
  | [] => [.hoisting false]
  | pattern :: init => events pattern ++ .hoisting false :: eventsAll init

end

/-- What a function literal says about names, its own scope being open: its name, its parameters
and its body. -/
def literalEvents (n : Node) : List Event :=
  eventsAll (n.parts.filter fun p => p.label != .typeParameters)

end FineGrain.Lexical
