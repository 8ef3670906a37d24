import FineGrain.Toml.Quoted
import FineGrain.Toml.Table
/-!
Reading a TOML document: values, lines, and the table that the lines add up to.
-/

namespace FineGrain.Toml

def isBlank (c : Char) : Bool := c == ' ' || c == '\t'

def skipBlanks (cs : List Char) : List Char := cs.dropWhile isBlank

/-- Skip a comment where one comes next; `none` when it holds a control character. -/
def skipComment? (cs : List Char) : Option (List Char) :=
  match cs with
  | '#' :: rest =>
      let (comment, rest) := rest.span fun c => c != '\n' && c != '\r'
      if comment.all isPrintable then some rest else none
  | _ => some cs

/-- Pass the end of a line: a blank rest, perhaps a comment, and a line end or the end of the
text. -/
def endLine? (cs : List Char) : Option (List Char) := do
  match ← skipComment? (skipBlanks cs) with
  | [] => some []
  | '\n' :: rest | '\r' :: '\n' :: rest => some rest
  | _ => none

/-- Skip blanks, comments and line ends between the items of an array. -/
def skipSpace? : Nat → List Char → Option (List Char)
  | 0, _ => none
  | n + 1, cs =>
      match cs with
      | '\n' :: rest | '\r' :: '\n' :: rest | ' ' :: rest | '\t' :: rest => skipSpace? n rest
      | '#' :: _ => do skipSpace? n (← skipComment? cs)
      | _ => some cs

def isBareKeyChar (c : Char) : Bool := c.isAlphanum || c == '_' || c == '-'

/-- One step of a dotted key. -/
def simpleKey? (cs : List Char) : Option (String × List Char) :=
  match cs with
  | '"' :: _ | '\'' :: _ => quoted? cs
  | _ =>
      match cs.span isBareKeyChar with
      | ([], _) => none
      | (key, rest) => some (String.ofList key, rest)

/-- A dotted key; blanks may stand around its dots and behind it. -/
def key? : Nat → List Char → Option (List String × List Char)
  | 0, _ => none
  | n + 1, cs => do
      let (step, rest) ← simpleKey? (skipBlanks cs)
      match skipBlanks rest with
      | '.' :: rest => do
          let (steps, rest) ← key? n rest
          return (step :: steps, rest)
      | rest => return ([step], rest)

/-- Whether a character ends a bare word. -/
def isDelimiter (c : Char) : Bool := [' ', '\t', '\n', '\r', ',', ']', '\x7d', '#', '='].contains c

/-- A bare word; one blank between a date and a time belongs to it. -/
def bareWord (cs : List Char) : List Char × List Char :=
  let (word, rest) := cs.span fun c => !isDelimiter c
  match rest with
  | ' ' :: d :: more =>
      if isDate word && d.isDigit then
        let (time, rest) := (d :: more).span fun c => !isDelimiter c
        (word ++ ' ' :: time, rest)
      else (word, rest)
  | _ => (word, rest)

def bare? (cs : List Char) : Option (Item × List Char) :=
  match bareWord cs with
  | (word, rest) =>
      if word == "true".toList then some (.boolean true, rest)
      else if word == "false".toList then some (.boolean false, rest)
      else if isScalar word then some (.scalar, rest)
      else none

mutual

def value? : Nat → List Char → Option (Item × List Char)
  | 0, _ => none
  | n + 1, cs =>
      match cs with
      | '"' :: _ | '\'' :: _ => (string? cs).map fun (s, rest) => (.string s, rest)
      | '[' :: rest => (items? n rest).map fun (items, rest) => (.array items, rest)
      | '\x7b' :: rest =>
          match skipBlanks rest with
          | '\x7d' :: rest => some (.inline [], rest)
          | rest => (pairs? n [] rest).map fun (entries, rest) => (.inline entries, rest)
      | _ => bare? cs

/-- Read the items of an array and its closing bracket; a comma may stand behind the last item. -/
def items? : Nat → List Char → Option (List Item × List Char)
  | 0, _ => none
  | n + 1, cs => do
      match ← skipSpace? (cs.length + 1) cs with
      | ']' :: rest => return ([], rest)
      | cs =>
          let (item, rest) ← value? n cs
          match ← skipSpace? (rest.length + 1) rest with
          | ',' :: rest =>
              let (items, rest) ← items? n rest
              return (item :: items, rest)
          | ']' :: rest => return ([item], rest)
          | _ => none

/-- Read the pairs of an inline table and its closing brace. -/
def pairs? : Nat → Entries → List Char → Option (Entries × List Char)
  | 0, _, _ => none
  | n + 1, entries, cs => do
      match ← key? (cs.length + 1) cs with
      | (key, '=' :: rest) =>
          let (item, rest) ← value? n (skipBlanks rest)
          let entries ← entries.assign item key
          match skipBlanks rest with
          | ',' :: rest => pairs? n entries rest
          | '\x7d' :: rest => return (entries, rest)
          | _ => none
      | _ => none

end

/-- What a document has been read into: the root, and the header that the lines which follow belong
to. -/
structure Partial where
  root : Entries
  header : List String

def line? (read : Partial) (cs : List Char) : Option (Partial × List Char) :=
  match skipBlanks cs with
  | '[' :: '[' :: rest => do
      match ← key? (rest.length + 1) rest with
      | (key, ']' :: ']' :: rest) =>
          let root ← read.root.atHeader (Entries.addTable (key.getLastD "")) key.dropLast
          return (⟨root, key⟩, ← endLine? rest)
      | _ => none
  | '[' :: rest => do
      match ← key? (rest.length + 1) rest with
      | (key, ']' :: rest) =>
          let root ← read.root.atHeader (Entries.openTable (key.getLastD "")) key.dropLast
          return (⟨root, key⟩, ← endLine? rest)
      | _ => none
  | cs =>
      match cs.head? with
      | none | some '#' | some '\n' | some '\r' => (endLine? cs).map fun rest => (read, rest)
      | some _ => do
          match ← key? (cs.length + 1) cs with
          | (key, '=' :: rest) =>
              let (item, rest) ← value? (rest.length + 1) (skipBlanks rest)
              let root ← read.root.atHeader (Entries.assign item key) read.header
              return (⟨root, read.header⟩, ← endLine? rest)
          | _ => none

def lines? : Nat → Partial → List Char → Option Entries
  | _, read, [] => some read.root
  | 0, _, _ => none
  | n + 1, read, cs => do
      let (read, rest) ← line? read cs
      lines? n read rest

/-- The table that a document spells. A mark of the byte order in front of it does not count. -/
def parse? (text : List Char) : Option Entries :=
  let text := match text with
    | '\ufeff' :: rest => rest
    | text => text
  lines? (text.length + 1) ⟨[], []⟩ text

end FineGrain.Toml
