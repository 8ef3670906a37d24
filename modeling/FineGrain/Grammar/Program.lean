import FineGrain.Grammar.Read.Markup
import FineGrain.Grammar.Read.Statement
/-!
Reading a whole unit. The constructions of the grammar contain one another; the tower of rules ties
them together, each storey reading with the one below, and is as high as any nesting in the text.
-/

namespace FineGrain.Grammar

namespace Read

/-- The rules whose constructions are nested no deeper than the given number. -/
def rules : Nat → Rules
  | 0 => Rules.none
  | n + 1 =>
      { expression := fun c s => expressionRule (rules n) c s
        assignment := fun mayAnswer c s => assignmentRule (rules n) mayAnswer c s
        binary := fun rank c s => binaryRule (rules n) rank c s
        unary := fun c s => unaryRule (rules n) c s
        simpleUnary := fun c s => unaryRule (rules n) c s
        leftHand := fun c s => leftHandRule (rules n) c s
        member := fun c s => memberRule (rules n) (classExpression (rules n)) c s
        statement := fun alone c s => statementRule (rules n) alone c s
        pattern := fun c s => patternRule (rules n) c s
        type := fun c s => typeRule (rules n) c s
        markup := fun amongChildren c s => markupRule (rules n) amongChildren c s }

/-- Read a unit from its first token to the end of the text. -/
def program (g : Rules) : Read Program := do
  let hashbang ← match (← token).kind with
    | .hashbang =>
        let span := (← token).span
        advance
        pure (some span)
    | _ => pure none
  let all ← many (do return (← token).kind != .endOfText) (g.statement false)
  let (directives, statements) := splitDirectives all
  faultIf (Node.anyStrayDefault statements)
  return ⟨hashbang, directives, statements⟩

end Read

namespace Program

def topContext (dialect : Dialect) (bound : Nat) : Context :=
  { dialect := dialect, bound := bound, inOperator := true, yieldWord := false,
    awaitWord := !dialect.script, returns := false, decorator := false, ambient := dialect.ambient,
    noConditional := false }

/-- The state at the first token of a text. -/
def firstState (dialect : Dialect) (text : List Char) : State :=
  let s := Scanned.after dialect ⟨0, text⟩
  ⟨s.here, s.token, s.next, 0, !s.wellFormed⟩

/-- The syntax tree of a text, if it is a well-formed unit of the dialect. Every construction takes
at least one character and passes through fewer than sixteen storeys of rules. -/
def parse? (dialect : Dialect) (text : List Char) : Option Program :=
  let bound := text.length + 2
  match Read.program (Read.rules (16 * bound)) (topContext dialect bound)
      (firstState dialect text) with
  | some (program, state) => if state.faulty then none else some program
  | none => none

/-- The reader that a program runs with. -/
def parser : Parser := fun path text => parse? ((path.map Dialect.ofPath).getD .plain) text

end Program

end FineGrain.Grammar
