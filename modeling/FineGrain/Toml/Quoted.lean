import FineGrain.Toml.Scalar
/-!
Quoted strings of TOML: basic and literal ones, on one line and on several. Each reader starts
behind the opening quotes and answers what is behind the closing ones.
-/

namespace FineGrain.Toml

/-- Whether a character may stand inside a comment or a string on one line. -/
def isPrintable (c : Char) : Bool := c == '\t' || (' ' ≤ c && c != '\x7f')

/-- The number that `n` hexadecimal digits spell, and what follows them. -/
def hex? (n : Nat) (cs : List Char) : Option (Nat × List Char) :=
  let digits := cs.take n
  if digits.length == n && digits.all isHexDigit then
    let value (c : Char) : Nat :=
      if c.isDigit then c.toNat - '0'.toNat else 10 + (c.toLower.toNat - 'a'.toNat)
    some (digits.foldl (fun acc c => 16 * acc + value c) 0, cs.drop n)
  else none

/-- The character with a code point, unless it is a surrogate or out of range. -/
def scalar? (n : Nat) : Option Char := if n.isValidChar then some (Char.ofNat n) else none

/-- The character that an escape stands for, read from behind its backslash. -/
def escape? : List Char → Option (Char × List Char)
  | 'b' :: rest => some ('\x08', rest)
  | 't' :: rest => some ('\t', rest)
  | 'n' :: rest => some ('\n', rest)
  | 'f' :: rest => some ('\x0c', rest)
  | 'r' :: rest => some ('\r', rest)
  | '"' :: rest => some ('"', rest)
  | '\\' :: rest => some ('\\', rest)
  | 'u' :: rest => do
      let (n, rest) ← hex? 4 rest
      return (← scalar? n, rest)
  | 'U' :: rest => do
      let (n, rest) ← hex? 8 rest
      return (← scalar? n, rest)
  | _ => none

/-- Put a character in front of a string that has been read. -/
def push (c : Char) (read : Option (List Char × List Char)) : Option (List Char × List Char) :=
  read.map fun (s, rest) => (c :: s, rest)

/-- A literal string on one line: nothing is escaped. -/
def literal? : List Char → Option (List Char × List Char)
  | [] => none
  | '\'' :: rest => some ([], rest)
  | c :: rest => if isPrintable c then push c (literal? rest) else none

def basic? : Nat → List Char → Option (List Char × List Char)
  | 0, _ | _, [] => none
  | _ + 1, '"' :: rest => some ([], rest)
  | n + 1, '\\' :: rest => do
      let (c, rest) ← escape? rest
      push c (basic? n rest)
  | n + 1, c :: rest => if isPrintable c then push c (basic? n rest) else none

/-- A line end right behind the opening quotes does not count. -/
def skipLineEnd : List Char → List Char
  | '\n' :: rest | '\r' :: '\n' :: rest => rest
  | cs => cs

/-- The end of a string on several lines: three quotes, with up to two more in front of them. -/
def closing? (quote : Char) (cs : List Char) : Option (List Char × List Char) :=
  let quotes := (cs.takeWhile (· == quote)).length
  if 3 ≤ quotes then
    let inside := min (quotes - 3) 2
    some (List.replicate inside quote, cs.drop (inside + 3))
  else none

/-- Skip what a backslash at the end of a line hides: blanks and line ends up to the next other
character. `none` when something else stands between the backslash and the line end. -/
def hiddenLineEnd? (cs : List Char) : Option (List Char) :=
  match skipLineEnd (cs.dropWhile fun c => c == ' ' || c == '\t') with
  | rest =>
      if rest.length < (cs.dropWhile fun c => c == ' ' || c == '\t').length then
        some (rest.dropWhile fun c => c == ' ' || c == '\t' || c == '\n' || c == '\r')
      else none

def longLiteral? : Nat → List Char → Option (List Char × List Char)
  | 0, _ | _, [] => none
  | n + 1, c :: rest =>
      match closing? '\'' (c :: rest) with
      | some found => some found
      | none =>
          match c, rest with
          | '\n', _ => push '\n' (longLiteral? n rest)
          | '\r', '\n' :: rest => push '\n' (longLiteral? n rest)
          | _, _ => if isPrintable c then push c (longLiteral? n rest) else none

def longBasic? : Nat → List Char → Option (List Char × List Char)
  | 0, _ | _, [] => none
  | n + 1, c :: rest =>
      match closing? '"' (c :: rest) with
      | some found => some found
      | none =>
          match c, rest with
          | '\\', _ =>
              match hiddenLineEnd? rest with
              | some rest => longBasic? n rest
              | none => do
                  let (c, rest) ← escape? rest
                  push c (longBasic? n rest)
          | '\n', _ => push '\n' (longBasic? n rest)
          | '\r', '\n' :: rest => push '\n' (longBasic? n rest)
          | _, _ => if isPrintable c then push c (longBasic? n rest) else none

/-- A string on one line, from its opening quote on: what a quoted key may be. -/
def quoted? (cs : List Char) : Option (String × List Char) :=
  let read := match cs with
    | '"' :: rest => basic? (rest.length + 1) rest
    | '\'' :: rest => literal? rest
    | _ => none
  read.map fun (s, rest) => (String.ofList s, rest)

/-- A string of any of the four kinds, from its opening quote on. -/
def string? (cs : List Char) : Option (String × List Char) :=
  match cs with
  | '"' :: '"' :: '"' :: rest =>
      let rest := skipLineEnd rest
      (longBasic? (rest.length + 1) rest).map fun (s, rest) => (String.ofList s, rest)
  | '\'' :: '\'' :: '\'' :: rest =>
      let rest := skipLineEnd rest
      (longLiteral? (rest.length + 1) rest).map fun (s, rest) => (String.ofList s, rest)
  | _ => quoted? cs

end FineGrain.Toml
