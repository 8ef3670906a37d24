import FineGrain.Text.Span
/-!
Syntax trees. A node has a label, the place it was read from, and its parts in the order in which
they are written. What a rewrite never looks into (types, operators, the text of markup) leaves no
node behind.
-/

namespace FineGrain.Grammar

inductive PropertyForm where
  | value | shorthand | method | getter | setter
deriving DecidableEq, Repr, Inhabited

/-- How a function or class is introduced. A signature is a declared function or a method without a body. -/
inductive Role where
  | declaration | expression | signature
deriving DecidableEq, Repr, Inhabited

/-- The assigning keywords. -/
inductive VariableKind where
  | var | block
deriving DecidableEq, Repr, Inhabited

/-- Which operator joins two operands: the ones that may not be mixed, and all others. -/
inductive Connective where
  | coalesce | andOr | other
deriving DecidableEq, Repr, Inhabited

/-- One name that an import binds. -/
inductive Imported where
  | default (binding : String)
  | namespace (binding : String)
  | named (name binding : String) (typeOnly : Bool)
deriving DecidableEq, Repr

/-- An import declaration: the module, what it binds, and whether it concerns types alone. -/
structure Import where
  source : String
  names : List Imported
  typeOnly : Bool
deriving DecidableEq, Repr, Inhabited

/-- What a node is. The parts of each kind are named behind it.

Names and literals:
* `reference`, `binding`, `target`: a name that is read, declared, assigned to
* `key`, `privateKey`: a property name; `string`, `number`, `bigint`, `boolean`, `null`, `regex`
* `template`: the substitutions; `tagged`: the tag, the template

Expressions:
* `this`, `super`, `metaProperty`; `importCall`: the arguments
* `array`: the elements that are present; `object`: the properties; `spread`: the
  operand, and whether no comma follows
* `property`: the key, the value (for a shorthand with a default also the default)
* `paren`: the inner expression; `sequence`: the operands
* `call`, `construct`: the callee, the arguments; `member`: the object; `index`: the object, the
  index; `privateMember`: the object; `chain`: the expression that a missing value cuts short
* `unary`, `update`: the operand; `binary`, `conditional`, `assign`: the operands
* `yield`, `await`: the operand; `typed`: the expression that carries a
  type; `instantiated`: the expression with type arguments

Functions and classes:
* `function`: the name, the type parameters, `params`, `body`; `arrow`: the same without a name
* `params`: decorators and patterns; `body`: the statements
* `class`: decorators, the name, then `classScope`: the type parameters, the heritage, the members
* `method`: decorators, the key, the function; `field`: decorators, the key, the value
* `staticBlock`: the statements

Patterns:
* `objectPattern`, `arrayPattern`, `patternProperty`, `rest`, `defaulted`: patterns that declare
* `objectTarget`, `arrayTarget`, `targetProperty`, `targetShorthand`: patterns that assign

Markup:
* `element`, `fragment`: attributes and children; `attribute`: the value; `markupSpread`: the operand
* `container`: the expression in braces, if there is one; `markupSpreadChild`: the operand

Statements:
* `block`, `loop`: a scope of its own; `switch`: the discriminant, then `cases`
* `catch`: the parameter, the block; `variableList`: the declarators; `declarator`: the pattern, the
  value
* `statement`: any other, with its parts; `expressionStatement`: the expression
* `imports`: the bindings; `exports`: what is exported
* `typeParameters`: the names that they declare
* `typeDeclaration`: a declaration that belongs to types, with what of it can be read or declared;
  `typeScope`: the part of it with a scope of its own -/
inductive Label where
  | reference (name : String)
  | binding (name : String)
  | target (name : String)
  | key (name : String)
  | privateKey
  | string (value : String)
  | number
  | bigint
  | boolean
  | null
  | regex
  | template
  | tagged
  | this
  | super
  | metaProperty
  | importCall
  | array
  | object
  | spread (last : Bool)
  | property (form : PropertyForm) (computed : Bool)
  | paren
  | sequence
  | call
  | construct
  | member (name : String)
  | index
  | privateMember
  | chain
  | unary
  | update
  | binary (joined : Connective)
  | conditional
  | assign (plain : Bool)
  | yield
  | await
  | typed
  | instantiated
  | function (role : Role)
  | arrow (concise : Bool)
  | params
  | body (directives : List Span)
  | class (role : Role)
  | classScope
  | method
  | field
  | staticBlock
  | objectPattern
  | arrayPattern
  | patternProperty
  | rest
  | defaulted
  | objectTarget
  | arrayTarget
  | targetProperty
  | targetShorthand (name : String)
  | element
  | fragment
  | attribute
  | markupSpread
  | container
  | markupSpreadChild
  | block
  | loop
  | switch
  | cases
  | catch
  | variableList
  | declarator (kind : VariableKind)
  | statement
  | expressionStatement
  | imports (declared : Import)
  | exports
  | typeParameters
  | typeDeclaration
  | typeScope
deriving DecidableEq, Repr, Inhabited

inductive Node where
  | mk (label : Label) (span : Span) (parts : List Node)
deriving Repr, Inhabited

namespace Node

def label : Node → Label
  | mk label _ _ => label

def span : Node → Span
  | mk _ span _ => span

def parts : Node → List Node
  | mk _ _ parts => parts

/-- The expression inside any number of parentheses. -/
def inner : Node → Node
  | mk .paren _ [e] => inner e
  | n => n

/-- The name that a plain reference reads. -/
def reference? (n : Node) : Option String :=
  match n.label with
  | .reference name => some name
  | _ => none

end Node

/-- A unit as read: the first line that addresses the system, the directives at the top, and the
statements. -/
structure Program where
  hashbang : Option Span
  directives : List Span
  statements : List Node
deriving Repr, Inhabited

/-- A reader of units: the tree of a text, unless it is malformed. The path of the unit, if it has one,
picks the dialect. -/
abbrev Parser := Option String → List Char → Option Program

end FineGrain.Grammar
