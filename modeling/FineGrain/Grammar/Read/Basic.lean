import FineGrain.Grammar.Token.Scan
import FineGrain.Grammar.Node
/-!
Reading syntax trees off a text: the state of a reader and its basic steps. A reader either refuses,
or answers with a value and the state behind what it read. A fault that does not stop the reading is
only noted; a unit with a noted fault is not well formed either.
-/

namespace FineGrain.Grammar

/-- What the place in the grammar decides.

* `bound`: more than the number of tokens in the text
* `inOperator`: whether `in` is an operator here
* `yieldWord`, `awaitWord`: whether these words are operators here
* `returns`: whether a function body encloses the place
* `decorator`: whether a decorator is being read, where a bracket opens a member name
* `ambient`: whether declarations need no implementation
* `noConditional`: whether a conditional type may not be read here
-/
structure Context where
  dialect : Dialect
  bound : Nat
  inOperator : Bool
  yieldWord : Bool
  awaitWord : Bool
  returns : Bool
  decorator : Bool
  ambient : Bool
  noConditional : Bool
deriving DecidableEq, Repr

/-- Where a reader stands: the place of the current token, the token, the place behind it, the end
of the token before, and whether a fault has been noted. -/
structure State where
  here : Cursor
  token : Token
  next : Cursor
  lastEnd : Nat
  faulty : Bool
deriving DecidableEq, Repr

abbrev Read (α : Type) : Type := ReaderT Context (StateT State Option) α

namespace Read

/-- Stop: the text is not of the form being read. -/
def refuse : Read α := fun _ _ => none

def token : Read Token := do return (← get).token

def context : Read Context := read

def types : Read Bool := do return (← context).dialect.types

def markup : Read Bool := do return (← context).dialect.markup

def fault : Read Unit := modify fun s => { s with faulty := true }

def faultIf (b : Bool) : Read Unit := if b then fault else pure ()

def within (change : Context → Context) (r : Read α) : Read α := fun c s => r (change c) s

/-- Make `scanned` the current token; the one before it has been read. -/
def moveTo (scanned : Scanned) : Read Unit :=
  modify fun s =>
    { here := scanned.here, token := scanned.token, next := scanned.next,
      lastEnd := s.token.span.stop, faulty := s.faulty || !scanned.wellFormed }

def advance : Read Unit := do
  let c ← context
  let s ← get
  moveTo (Scanned.after c.dialect s.next)

/-- Put another reading of the current token in its place. -/
def rescan (scanned : Scanned) : Read Unit :=
  modify fun s =>
    { s with here := scanned.here, token := scanned.token, next := scanned.next,
             faulty := s.faulty || !scanned.wellFormed }

/-- The offset of the current token. -/
def start : Read Nat := do return (← token).span.start

/-- The range from `start` to the end of what has been read. -/
def spanFrom (start : Nat) : Read Span := do return ⟨start, (← get).lastEnd⟩

/-- A node from `start` to the end of what has been read. -/
def node (label : Label) (start : Nat) (parts : List Node) : Read Node := do
  return .mk label (← spanFrom start) parts

def isAt (mark : Punct) : Read Bool := do return (← token).isPunct mark

def isAtWord (name : String) : Read Bool := do return (← token).isWord name

def eat (mark : Punct) : Read Bool := do
  if ← isAt mark then advance; return true
  else return false

def takeKeyword : Read Unit := do
  faultIf (← token).escaped
  advance

def eatWord (name : String) : Read Bool := do
  if ← isAtWord name then takeKeyword; return true
  else return false

def expect (mark : Punct) : Read Unit := do
  unless ← eat mark do refuse

def expectWord (name : String) : Read Unit := do
  unless ← eatWord name do refuse

/-- What `r` answers here, without reading anything; `default` where it refuses. -/
def lookahead (default : α) (r : Read α) : Read α := fun c s =>
  match r c s with
  | some (a, _) => some (a, s)
  | none => some (default, s)

/-- What `r` reads, or nothing where it refuses. -/
def attempt (r : Read α) : Read (Option α) := fun c s =>
  match r c s with
  | some (a, s) => some (some a, s)
  | none => some (none, s)

def whileDo (more : Read Bool) (item : Read α) : Nat → Read (List α)
  | 0 => refuse
  | n + 1 => do
      if ← more then
        let a ← item
        let rest ← whileDo more item n
        return a :: rest
      else return []

def many (more : Read Bool) (item : Read α) : Read (List α) := do
  whileDo more item (← context).bound

/-- Read items, each given whether a comma follows it, up to the mark `close`, which stays. -/
def commaItems (close : Punct) (item : Read α) : Nat → Read (List (α × Bool))
  | 0 => refuse
  | n + 1 => do
      if ← isAt close then return []
      else
        let a ← item
        if ← isAt close then return [(a, false)]
        else
          expect .comma
          let rest ← commaItems close item n
          return (a, true) :: rest

/-- Read items with commas between them, and perhaps one behind the last, up to `close`. -/
def commaList (close : Punct) (item : Read α) : Read (List (α × Bool)) := do
  commaItems close item (← context).bound

def statementMayEnd : Read Bool := do
  let t ← token
  return t.kind == .endOfText || t.isPunct .rbrace || t.isPunct .semicolon || t.afterLineEnd

/-- The end of a statement: a semicolon, or a place where it may be left out. -/
def statementEnd : Read Unit := do
  if ← eat .semicolon then return
  unless ← statementMayEnd do refuse

def atIdentifier : Read Bool := do
  return (← token).word?.any Word.isIdentifier

def isAtAnyWord : Read Bool := do
  return (← token).word?.isSome

/-- Note a fault where `name` is an operator word of this place. -/
def checkName (name : String) : Read Unit := do
  let c ← context
  faultIf ((name == "await" && c.awaitWord) || (name == "yield" && c.yieldWord))

def identifier : Read String := do
  match (← token).word? with
  | some name =>
      if Word.isIdentifier name then
        checkName name
        advance
        return name
      else refuse
  | none => refuse

def binding : Read Node := do
  let start ← start
  let name ← identifier
  node (.binding name) start []

def anyName : Read String := do
  match (← token).word? with
  | some name =>
      advance
      return name
  | none => refuse

def nextIs (q : Token → Bool) : Read Bool := lookahead false do
  advance
  return q (← token)

/-- A greater-than sign read as the longest operator it opens. -/
def joinGreater : Read Unit := do
  let s ← get
  if s.token.isPunct .gt then
    rescan (Scanned.operator s.here s.token.afterLineEnd)

/-- A double less-than sign read as a single one. -/
def splitLess : Read Unit := do
  let s ← get
  if s.token.isPunct .shl || s.token.isPunct .shlAssign || s.token.isPunct .le then
    rescan (Scanned.make (.punct .lt) s.here ⟨s.here.offset + 1, s.here.rest.drop 1⟩
      s.token.afterLineEnd true)

/-- The constructions that contain one another, each as read so far. -/
structure Rules where
  expression : Read Node
  assignment : Bool → Read Node
  binary : Nat → Read Node
  unary : Read Node
  simpleUnary : Read Node
  leftHand : Read Node
  member : Read (Node × Bool)
  statement : Bool → Read Node
  pattern : Read Node
  type : Read Unit
  markup : Bool → Read Node

/-- Rules that refuse everything: the bottom of the tower of rules. -/
def Rules.none : Rules where
  expression := refuse
  assignment _ := refuse
  binary _ := refuse
  unary := refuse
  simpleUnary := refuse
  leftHand := refuse
  member := refuse
  statement _ := refuse
  pattern := refuse
  type := refuse
  markup _ := refuse

end Read

end FineGrain.Grammar
