import FineGrain.Text.Span
import FineGrain.Names
/-!
Naming of anonymous function literals. A textual scan finds the parenthesis of every `function (`
without a name; strings, template text and comments are skipped, template substitutions are code.
The scan knows no grammar: a regular expression or markup text can open what it takes for a string.
-/

namespace FineGrain.AnonymousFunction

/-- White space between `function` and what follows it: the five ASCII characters only. -/
def isBlank (c : Char) : Bool :=
  c == ' ' || c == '\t' || c == '\n' || c == '\x0c' || c == '\r'

/-- Characters that continue a word; every character outside ASCII does. -/
def isWordChar (c : Char) : Bool :=
  c.isAlphanum || c == '_' || c == '$' || 0x80 ≤ c.toNat

/-- A place in the text: the offset and what follows it. -/
structure Place where
  offset : Nat
  rest : List Char
deriving DecidableEq, Repr

namespace Place

def step (p : Place) : Place :=
  match p.rest with
  | [] => p
  | c :: rest => ⟨p.offset + c.utf8Size, rest⟩

def skipWhile (q : Char → Bool) (offset : Nat) : List Char → Place
  | [] => ⟨offset, []⟩
  | c :: rest => if q c then skipWhile q (offset + c.utf8Size) rest else ⟨offset, c :: rest⟩

end Place

/-- Skip a quoted string from after its opening quote. It ends after the quote, or before a line
feed; a backslash hides the next character. -/
def skipQuoted (quote : Char) (offset : Nat) : List Char → Place
  | [] => ⟨offset, []⟩
  | '\\' :: c :: rest => skipQuoted quote (offset + 1 + c.utf8Size) rest
  | c :: rest =>
      if c == '\n' then ⟨offset, c :: rest⟩
      else if c == quote then ⟨offset + c.utf8Size, rest⟩
      else skipQuoted quote (offset + c.utf8Size) rest

/-- Skip template text up to its closing mark (`false`) or into a substitution (`true`). -/
def skipTemplate (offset : Nat) : List Char → Bool × Place
  | [] => (false, ⟨offset, []⟩)
  | '\\' :: c :: rest => skipTemplate (offset + 1 + c.utf8Size) rest
  | '$' :: '{' :: rest => (true, ⟨offset + 2, rest⟩)
  | c :: rest =>
      if c == '\x60' then (false, ⟨offset + 1, rest⟩)
      else skipTemplate (offset + c.utf8Size) rest

/-- Skip a block comment from after its opening mark; it may run to the end of the text. -/
def skipBlockComment (offset : Nat) : List Char → Place
  | [] => ⟨offset, []⟩
  | '*' :: '/' :: rest => ⟨offset + 2, rest⟩
  | c :: rest => skipBlockComment (offset + c.utf8Size) rest

/-- Split off the word at the start of a text. -/
def takeWord (offset : Nat) : List Char → List Char × Place
  | [] => ([], ⟨offset, []⟩)
  | c :: rest =>
      if isWordChar c then
        let (word, p) := takeWord (offset + c.utf8Size) rest
        (c :: word, p)
      else ([], ⟨offset, c :: rest⟩)

/-- The offset of the parenthesis that follows `function` at `p`, with white space and at most one
star between them. -/
def openParen? (p : Place) : Option Nat :=
  let p := Place.skipWhile isBlank p.offset p.rest
  let p := match p.rest with
    | '*' :: rest => Place.skipWhile isBlank (p.offset + 1) rest
    | _ => p
  match p.rest with
  | '(' :: _ => some p.offset
  | _ => none

/-- Where the scan stands: the place, the brace depth inside each open template substitution
(innermost first), the last character that was not white space, and the sites found so far. -/
structure Scan where
  place : Place
  depths : List Nat
  last : Option Char
  sites : List Nat
deriving DecidableEq, Repr

/-- The last character before offset `stop` that is not white space, or `last` if there is none;
`offset` is where the text starts. -/
def lastSignificant (last : Option Char) (stop offset : Nat) : List Char → Option Char
  | [] => last
  | c :: rest =>
      if offset < stop then
        lastSignificant (if isBlank c then last else some c) stop (offset + c.utf8Size) rest
      else last

/-- Move the scan to `p`, reading the last significant character off the text passed over. -/
def Scan.moveTo (s : Scan) (p : Place) (depths : List Nat) (sites : List Nat) : Scan :=
  ⟨p, depths, lastSignificant s.last p.offset s.place.offset s.place.rest, sites⟩

/-- Enter template text at `p`: a substitution that opens there gets a fresh brace depth. -/
def Scan.template (s : Scan) (p : Place) (depths : List Nat) : Scan :=
  match skipTemplate p.offset p.rest with
  | (true, p) => s.moveTo p (0 :: depths) s.sites
  | (false, p) => s.moveTo p depths s.sites

/-- The site, if any, that the word `word` ending at `p` announces. A word after a dot is a
property name. -/
def siteAfter (s : Scan) (word : List Char) (p : Place) : List Nat :=
  if String.ofList word == "function" && s.last != some '.' then (openParen? p).toList else []

/-- One step of the scan over the text at its place. -/
def Scan.step (s : Scan) : Scan :=
  let p := s.place
  match p.rest with
  | [] => s
  | '/' :: '/' :: rest =>
      s.moveTo (Place.skipWhile (· != '\n') (p.offset + 2) rest) s.depths s.sites
  | '/' :: '*' :: rest => s.moveTo (skipBlockComment (p.offset + 2) rest) s.depths s.sites
  | c :: rest =>
      if c == '\'' || c == '"' then s.moveTo (skipQuoted c (p.offset + 1) rest) s.depths s.sites
      else if c == '\x60' then s.template p.step s.depths
      else if c == '{' then
        match s.depths with
        | [] => s.moveTo p.step [] s.sites
        | d :: ds => s.moveTo p.step ((d + 1) :: ds) s.sites
      else if c == '}' then
        match s.depths with
        | [] => s.moveTo p.step [] s.sites
        | 0 :: ds => s.template p.step ds
        | (d + 1) :: ds => s.moveTo p.step (d :: ds) s.sites
      else if isWordChar c then
        let (word, q) := takeWord p.offset p.rest
        s.moveTo q s.depths (s.sites ++ siteAfter s word q)
      else s.moveTo p.step s.depths s.sites

/-- Run the scan to the end of the text; every step passes at least one character. -/
def Scan.run : Nat → Scan → Scan
  | 0, s => s
  | n + 1, s => if s.place.rest.isEmpty then s else Scan.run n s.step

/-- The offsets of the parentheses of all anonymous function literals, in order. -/
def sites (text : List Char) : List Nat :=
  (Scan.run text.length ⟨⟨0, text⟩, [], none, []⟩).sites

/-- Names for `n` further literals: the first literal's name followed by the literal's index. -/
def laterNames (text : List Char) (first : String) : Nat → Nat → Names → List String × Names
  | 0, _, names => ([], names)
  | n + 1, index, names =>
      let (name, names) := names.allocate (first ++ toString index) text
      let (rest, names) := laterNames text first n (index + 1) names
      (name :: rest, names)

def namesFor (text : List Char) (base : String) (names : Names) : Nat → List String × Names
  | 0 => ([], names)
  | n + 1 =>
      let (first, names) := names.allocate base text
      let (rest, names) := laterNames text first n 1 names
      (first :: rest, names)

/-- What goes before the parenthesis: a blank first when `function` touches it. -/
def insertion (before : Option Char) (name : String) : List Char :=
  match before with
  | some c => if isBlank c || c == '*' then name.toList else ' ' :: name.toList
  | none => name.toList

/-- Insert each name at its site; `offset` is where `text` starts and `before` the character ahead
of it. -/
def insertNames : Option Char → Nat → List Char → List (Nat × String) → List Char
  | _, _, text, [] => text
  | _, _, [], _ :: _ => []
  | before, offset, c :: rest, (site, name) :: more =>
      if offset == site then
        insertion before name ++ c :: insertNames (some c) (offset + c.utf8Size) rest more
      else c :: insertNames (some c) (offset + c.utf8Size) rest ((site, name) :: more)

/-- A text with its anonymous functions named, and the names in order. -/
structure Named where
  text : List Char
  names : List String
deriving DecidableEq, Repr

/-- Give every anonymous function literal of a text a name of its own. -/
def nameAll (text : List Char) (base : String) (names : Names) : Named × Names :=
  let found := sites text
  let (given, names) := namesFor text base names found.length
  (⟨insertNames none 0 text (found.zip given), given⟩, names)

end FineGrain.AnonymousFunction
