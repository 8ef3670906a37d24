import FineGrain.Grammar.Node
/-!
Expressions read as targets of an assignment. An object or array literal before `=` turns out to be
a pattern; its nodes are relabelled, and what cannot be assigned to is refused.
-/

namespace FineGrain.Grammar.Node

/-- Whether a type may be attached to an expression that is assigned to. -/
def isTypable (n : Node) : Bool :=
  match n.inner.label with
  | .reference _ | .member _ | .index | .privateMember | .typed => true
  | _ => false

mutual

/-- The target that an expression is in front of a plain assignment. -/
def target? : Node → Option Node
  | mk (.reference name) span _ => some (mk (.target name) span [])
  | mk (.member name) span parts => some (mk (.member name) span parts)
  | mk .index span parts => some (mk .index span parts)
  | mk .privateMember span parts => some (mk .privateMember span parts)
  | mk .typed span [e] => if e.isTypable then some (mk .typed span [e]) else none
  | mk .paren _ [e] =>
      match e.label with
      | .array | .object => none
      | _ => target? e
  | mk .array span elements => (elementTargets? elements).map (mk .arrayTarget span)
  | mk .object span properties => (propertyTargets? properties).map (mk .objectTarget span)
  | _ => none

/-- The target that an element or a property value is: a target and perhaps its default. -/
def elementTarget? : Node → Option Node
  | mk (.assign true) span parts => some (mk .defaulted span parts)
  | mk (.spread true) span [e] => (target? e).map fun t => mk .rest span [t]
  | mk (.spread _) _ _ => none
  | n => target? n

/-- The targets that the elements of an array literal are. A spread without a comma behind it is
the last element. -/
def elementTargets? : List Node → Option (List Node)
  | [] => some []
  | n :: rest => do
      let t ← elementTarget? n
      let ts ← elementTargets? rest
      return t :: ts

def propertyTarget? : Node → Option Node
  | mk (.property .shorthand _) span (mk (.key name) _ _ :: _ :: init) =>
      some (mk (.targetShorthand name) span init)
  | mk (.property .value _) span [key, value] =>
      (elementTarget? value).bind fun t =>
        match t.label with
        | .rest => none
        | _ => some (mk .targetProperty span [key, t])
  | mk (.spread true) span [e] =>
      match e.inner.label with
      | .array | .object => none
      | _ => (target? e).map fun t => mk .rest span [t]
  | _ => none

def propertyTargets? : List Node → Option (List Node)
  | [] => some []
  | n :: rest => do
      let t ← propertyTarget? n
      let ts ← propertyTargets? rest
      return t :: ts

end

/-- The target that an expression is under an operator that also reads it: no pattern. -/
def simpleTarget? (n : Node) : Option Node :=
  match n.label with
  | .array | .object => none
  | _ => n.target?

mutual

/-- Whether a shorthand property with a default is left in a tree: one that no assignment has
turned into a pattern. -/
def hasStrayDefault : Node → Bool
  | mk label _ parts =>
      (match label with
        | .property .shorthand _ => parts.length == 3
        | _ => false) || anyStrayDefault parts

def anyStrayDefault : List Node → Bool
  | [] => false
  | n :: rest => n.hasStrayDefault || anyStrayDefault rest

end

end FineGrain.Grammar.Node
