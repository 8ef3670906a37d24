import FineGrain.Text.Identifier
import FineGrain.Grammar.Dialect
import FineGrain.Grammar.Token
/-!
Scanning of tokens. Each function reads at the front of the text that is left and answers what it
found together with the place behind it. A slash that opens a regular expression, the end of a
template substitution and the text of markup look like other tokens, so the caller asks for them.
-/

namespace FineGrain.Grammar

/-- A place in the text: the offset and what is left from there on. -/
structure Cursor where
  offset : Nat
  rest : List Char
deriving DecidableEq, Repr, Inhabited

/-- A token, the places before and behind it, and whether its text is well formed. -/
structure Scanned where
  token : Token
  here : Cursor
  next : Cursor
  wellFormed : Bool
deriving DecidableEq, Repr, Inhabited

namespace Scan

/-! ### Characters -/

def hexValue? (c : Char) : Option Nat :=
  if c.isDigit then some (c.toNat - '0'.toNat)
  else if 'a' ≤ c && c ≤ 'f' then some (c.toNat - 'a'.toNat + 10)
  else if 'A' ≤ c && c ≤ 'F' then some (c.toNat - 'A'.toNat + 10)
  else none

def isOctal (c : Char) : Bool := '0' ≤ c && c ≤ '7'

def isBinary (c : Char) : Bool := c == '0' || c == '1'

def isHex (c : Char) : Bool := (hexValue? c).isSome

/-- Pass over the characters that satisfy `q`; answers how many there were. -/
def skipWhile (q : Char → Bool) : Cursor → Nat × Cursor
  | ⟨offset, rest⟩ => go offset 0 rest
where
  go (offset count : Nat) : List Char → Nat × Cursor
    | [] => (count, ⟨offset, []⟩)
    | c :: rest =>
        if q c then go (offset + c.utf8Size) (count + 1) rest else (count, ⟨offset, c :: rest⟩)

/-- The value of exactly `n` hexadecimal digits. -/
def hexDigits : Nat → Nat → List Char → Option (Nat × List Char)
  | 0, value, rest => some (value, rest)
  | _ + 1, _, [] => none
  | n + 1, value, c :: rest => do
      let d ← hexValue? c
      hexDigits n (16 * value + d) rest

/-- The value of hexadecimal digits up to a closing brace, at least one of them; `count` is the
number read so far. -/
def bracedHex (value count : Nat) : List Char → Option (Nat × Nat × List Char)
  | [] => none
  | c :: rest =>
      if c == '\x7d' then
        if count == 0 || 0x10ffff < value then none else some (value, count, rest)
      else do
        let d ← hexValue? c
        bracedHex (if 0x10ffff < value then value else 16 * value + d) (count + 1) rest

/-- The code point after the mark of a Unicode escape: four digits or any number in braces.
Answers the value, how many bytes were read, and what is left. -/
def unicodeEscape : List Char → Option (Nat × Nat × List Char)
  | '\x7b' :: rest => (bracedHex 0 0 rest).map fun (v, n, rest) => (v, n + 2, rest)
  | rest => (hexDigits 4 0 rest).map fun (v, rest) => (v, 4, rest)

def isHighSurrogate (n : Nat) : Bool := 0xd800 ≤ n && n < 0xdc00

def isLowSurrogate (n : Nat) : Bool := 0xdc00 ≤ n && n < 0xe000

/-- The characters that stand for a code point in a string value. A surrogate without its partner
is spelled as the replacement character and its four digits. -/
def codePoint (n : Nat) : List Char :=
  if 0xd800 ≤ n && n < 0xe000 then '\ufffd' :: Nat.toDigits 16 n else [Char.ofNat n]

/-- What an escape stands for, how many bytes it takes behind the backslash, what is left, and
whether it is well formed in a string and in a template. -/
structure Escape where
  value : List Char
  size : Nat
  rest : List Char
  inString : Bool
  inTemplate : Bool

/-- An escape that belongs nowhere; only its first character is passed over. -/
def badEscape (size : Nat) (rest : List Char) : Escape := ⟨[], size, rest, false, false⟩

/-- The rest of an octal escape with value `value`, at most `n` digits more. -/
def octalTail : Nat → Nat → Nat → List Char → Nat × Nat × List Char
  | 0, value, size, rest => (value, size, rest)
  | _ + 1, value, size, [] => (value, size, [])
  | n + 1, value, size, c :: rest =>
      if isOctal c then octalTail n (8 * value + (c.toNat - '0'.toNat)) (size + 1) rest
      else (value, size, c :: rest)

/-- The second half of a surrogate pair, when it follows as an escape of its own. -/
def lowHalf? : List Char → Option (Nat × List Char)
  | '\\' :: 'u' :: rest => do
      let (v, rest) ← hexDigits 4 0 rest
      if isLowSurrogate v then some (v, rest) else none
  | _ => none

def escape : List Char → Escape
  | [] => badEscape 0 []
  | 'n' :: rest => ⟨['\n'], 1, rest, true, true⟩
  | 't' :: rest => ⟨['\t'], 1, rest, true, true⟩
  | 'r' :: rest => ⟨['\r'], 1, rest, true, true⟩
  | 'b' :: rest => ⟨['\x08'], 1, rest, true, true⟩
  | 'v' :: rest => ⟨['\x0b'], 1, rest, true, true⟩
  | 'f' :: rest => ⟨['\x0c'], 1, rest, true, true⟩
  | '\r' :: '\n' :: rest => ⟨[], 2, rest, true, true⟩
  | 'x' :: rest =>
      match hexDigits 2 0 rest with
      | some (v, rest) => ⟨[Char.ofNat v], 3, rest, true, true⟩
      | none => badEscape 1 rest
  | 'u' :: rest =>
      match unicodeEscape rest with
      | none => badEscape 1 rest
      | some (v, size, after) =>
          if isHighSurrogate v && size == 4 then
            match lowHalf? after with
            | some (low, after) =>
                let n := 0x10000 + (v - 0xd800) * 0x400 + (low - 0xdc00)
                ⟨[Char.ofNat n], 11, after, true, true⟩
            | none => ⟨codePoint v, 5, after, true, true⟩
          else ⟨codePoint v, size + 1, after, true, true⟩
  | c :: rest =>
      if Identifier.isLineEnd c then ⟨[], c.utf8Size, rest, true, true⟩
      else if isOctal c then
        let digits := if c ≤ '3' then 2 else 1
        let (v, size, after) := octalTail digits (c.toNat - '0'.toNat) 1 rest
        let followedByDigit := match rest with | d :: _ => d.isDigit | [] => false
        ⟨[Char.ofNat v], size, after, true, c == '0' && !followedByDigit⟩
      else if c == '8' || c == '9' then ⟨[c], 1, rest, true, false⟩
      else ⟨[c], c.utf8Size, rest, true, true⟩

/-! ### White space and comments -/

/-- What is being passed over: nothing in particular, a line comment or a block comment. -/
inductive Gap where
  | code | line | block
deriving DecidableEq, Repr

/-- The place behind white space and comments, whether a line end was among them, and whether
every comment is closed. -/
structure Skipped where
  next : Cursor
  lineEnd : Bool
  closed : Bool
deriving DecidableEq, Repr

/-- Pass over white space and comments. In a script the old one-line comment marks count too, the
closing one at the start of a line only. -/
def skipGaps (script : Bool) : Gap → Bool → Nat → List Char → Skipped
  | gap, lineEnd, offset, [] => ⟨⟨offset, []⟩, lineEnd, gap != .block⟩
  | .line, lineEnd, offset, c :: rest =>
      skipGaps script (if Identifier.isLineEnd c then .code else .line)
        (lineEnd || Identifier.isLineEnd c) (offset + c.utf8Size) rest
  | .block, lineEnd, offset, '*' :: '/' :: rest => skipGaps script .code lineEnd (offset + 2) rest
  | .block, lineEnd, offset, c :: rest =>
      skipGaps script .block (lineEnd || Identifier.isLineEnd c) (offset + c.utf8Size) rest
  | .code, lineEnd, offset, '/' :: '/' :: rest => skipGaps script .line lineEnd (offset + 2) rest
  | .code, lineEnd, offset, '/' :: '*' :: rest => skipGaps script .block lineEnd (offset + 2) rest
  | .code, lineEnd, offset, '<' :: '!' :: '-' :: '-' :: rest =>
      if script then skipGaps script .line lineEnd (offset + 4) rest
      else ⟨⟨offset, '<' :: '!' :: '-' :: '-' :: rest⟩, lineEnd, true⟩
  | .code, lineEnd, offset, '-' :: '-' :: '>' :: rest =>
      if script && lineEnd then skipGaps script .line lineEnd (offset + 3) rest
      else ⟨⟨offset, '-' :: '-' :: '>' :: rest⟩, lineEnd, true⟩
  | .code, lineEnd, offset, c :: rest =>
      if Identifier.isBlank c || Identifier.isLineEnd c then
        skipGaps script .code (lineEnd || Identifier.isLineEnd c) (offset + c.utf8Size) rest
      else ⟨⟨offset, c :: rest⟩, lineEnd, true⟩

/-! ### Words -/

/-- A word as read: its characters, whether an escape occurs in it, whether all escapes are well
formed, and the place behind it. -/
structure WordRead where
  name : List Char
  escaped : Bool
  wellFormed : Bool
  next : Cursor

/-- Read the characters of a word; `first` holds at its start. The number bounds the escapes. -/
def readWord : Nat → Bool → Nat → List Char → WordRead
  | 0, _, offset, rest => ⟨[], false, true, ⟨offset, rest⟩⟩
  | _ + 1, _, offset, [] => ⟨[], false, true, ⟨offset, []⟩⟩
  | n + 1, first, offset, c :: rest =>
      let allowed := if first then Identifier.isStart else Identifier.isPart
      if c == '\\' then
        match rest with
        | 'u' :: digits =>
            match unicodeEscape digits with
            | some (v, size, after) =>
                let r := readWord n false (offset + 2 + size) after
                let ok := !(0xd800 ≤ v && v < 0xe000) && allowed (Char.ofNat v)
                { r with name := Char.ofNat v :: r.name, escaped := true,
                         wellFormed := r.wellFormed && ok }
            | none => ⟨[], true, false, ⟨offset + 2, digits⟩⟩
        | _ => ⟨[], true, false, ⟨offset + 1, rest⟩⟩
      else if allowed c then
        let r := readWord n false (offset + c.utf8Size) rest
        { r with name := c :: r.name }
      else ⟨[], false, true, ⟨offset, c :: rest⟩⟩

def wordAt (c : Cursor) : WordRead := readWord (c.rest.length + 1) true c.offset c.rest

/-! ### Numbers -/

/-- Pass over digits with single underscores between them; answers whether there is a digit and
whether every underscore stands between two. -/
def digitRun (q : Char → Bool) (afterDigit : Bool) (any ok : Bool) (offset : Nat) :
    List Char → Bool × Bool × Cursor
  | [] => (any, ok && (afterDigit || !any), ⟨offset, []⟩)
  | c :: rest =>
      if q c then digitRun q true true ok (offset + 1) rest
      else if c == '_' && any then digitRun q false any (ok && afterDigit) (offset + 1) rest
      else (any, ok && (afterDigit || !any), ⟨offset, c :: rest⟩)

def digits (q : Char → Bool) (c : Cursor) : Bool × Bool × Cursor :=
  digitRun q false false true c.offset c.rest

/-- The exponent of a number, if one follows; answers whether it is well formed. -/
def exponent (c : Cursor) : Bool × Cursor :=
  match c.rest with
  | 'e' :: rest | 'E' :: rest =>
      let signed : Cursor := match rest with
        | '+' :: after | '-' :: after => ⟨c.offset + 2, after⟩
        | _ => ⟨c.offset + 1, rest⟩
      let (any, ok, next) := digits Char.isDigit signed
      (any && ok, next)
  | _ => (true, c)

def fractionAndExponent (c : Cursor) : Bool × Cursor :=
  match c.rest with
  | '.' :: rest =>
      let (_, ok, next) := digits Char.isDigit ⟨c.offset + 1, rest⟩
      let (okExp, next) := exponent next
      (ok && okExp, next)
  | _ => exponent c

/-- Whether a number may end here: no word and no digit follows. -/
def numberEnds (c : Cursor) : Bool :=
  match c.rest with
  | [] => true
  | d :: _ => !(Identifier.isStart d || d.isDigit || d == '\\')

def bigSuffix (c : Cursor) : Bool × Cursor :=
  match c.rest with
  | 'n' :: rest => (true, ⟨c.offset + 1, rest⟩)
  | _ => (false, c)

/-- A number with a base mark: digits of the base and perhaps the big integer suffix. -/
def based (q : Char → Bool) (c : Cursor) : TokenKind × Bool × Cursor :=
  let (any, ok, next) := digits q c
  let (big, next) := bigSuffix next
  (if big then .bigint else .number, any && ok, next)

/-- A number that begins with a zero and another digit: octal, unless an 8 or a 9 makes it
decimal. -/
def zeroLed (c : Cursor) : TokenKind × Bool × Cursor :=
  let (_, octalEnd) := skipWhile isOctal c
  match octalEnd.rest with
  | d :: _ =>
      if d == '8' || d == '9' then
        let (_, next) := skipWhile Char.isDigit octalEnd
        let (ok, next) := fractionAndExponent next
        (.number, ok, next)
      else (.number, true, octalEnd)
  | [] => (.number, true, octalEnd)

/-- The number at a place that shows a digit, or a point before one. -/
def number (c : Cursor) : TokenKind × Bool × Cursor :=
  match c.rest with
  | '0' :: 'x' :: rest | '0' :: 'X' :: rest => based isHex ⟨c.offset + 2, rest⟩
  | '0' :: 'o' :: rest | '0' :: 'O' :: rest => based isOctal ⟨c.offset + 2, rest⟩
  | '0' :: 'b' :: rest | '0' :: 'B' :: rest => based isBinary ⟨c.offset + 2, rest⟩
  | '0' :: d :: rest =>
      if d.isDigit then zeroLed ⟨c.offset + 1, d :: rest⟩
      else if d == 'n' then (.bigint, true, ⟨c.offset + 2, rest⟩)
      else if d == '_' then (.number, false, ⟨c.offset + 2, rest⟩)
      else
        let (ok, next) := fractionAndExponent ⟨c.offset + 1, d :: rest⟩
        (.number, ok, next)
  | '.' :: _ =>
      let (ok, next) := fractionAndExponent c
      (.number, ok, next)
  | _ =>
      let (_, ok, next) := digits Char.isDigit c
      let (big, afterBig) := bigSuffix next
      if big then (.bigint, ok, afterBig)
      else
        let (okRest, next) := fractionAndExponent next
        (.number, ok && okRest, next)

/-! ### Strings, templates and regular expressions -/

/-- The value of a string up to its closing quote, whether it is well formed, and the place behind
it. The number bounds the characters read. -/
def readString (quote : Char) : Nat → Nat → List Char → List Char × Bool × Cursor
  | 0, offset, rest => ([], false, ⟨offset, rest⟩)
  | _ + 1, offset, [] => ([], false, ⟨offset, []⟩)
  | n + 1, offset, c :: rest =>
      if c == quote then ([], true, ⟨offset + 1, rest⟩)
      else if c == '\n' || c == '\r' then ([], false, ⟨offset, c :: rest⟩)
      else if c == '\\' then
        let e := escape rest
        let (value, ok, next) := readString quote n (offset + 1 + e.size) e.rest
        (e.value ++ value, ok && e.inString, next)
      else
        let (value, ok, next) := readString quote n (offset + c.utf8Size) rest
        (c :: value, ok, next)

/-- Template text: whether it runs into a substitution, whether its escapes are well formed,
whether it is closed at all, and the place behind it. -/
structure TemplateRead where
  opens : Bool
  wellEscaped : Bool
  closed : Bool
  next : Cursor

def readTemplate : Nat → Bool → Nat → List Char → TemplateRead
  | 0, ok, offset, rest => ⟨false, ok, false, ⟨offset, rest⟩⟩
  | _ + 1, ok, offset, [] => ⟨false, ok, false, ⟨offset, []⟩⟩
  | n + 1, ok, offset, c :: rest =>
      if c == '\x60' then ⟨false, ok, true, ⟨offset + 1, rest⟩⟩
      else if c == '\\' then
        let e := escape rest
        readTemplate n (ok && e.inTemplate) (offset + 1 + e.size) e.rest
      else
        match c, rest with
        | '$', '\x7b' :: rest => ⟨true, ok, true, ⟨offset + 2, rest⟩⟩
        | _, _ => readTemplate n ok (offset + c.utf8Size) rest

/-- The body of a regular expression up to its closing slash, which does not count inside a
character class. -/
def readRegex (inClass : Bool) (offset : Nat) : List Char → Bool × Cursor
  | [] => (false, ⟨offset, []⟩)
  | '\\' :: c :: rest =>
      if Identifier.isLineEnd c then (false, ⟨offset + 1, c :: rest⟩)
      else readRegex inClass (offset + 1 + c.utf8Size) rest
  | c :: rest =>
      if Identifier.isLineEnd c then (false, ⟨offset, c :: rest⟩)
      else if c == '/' && !inClass then (true, ⟨offset + 1, rest⟩)
      else readRegex ((inClass || c == '[') && c != ']') (offset + c.utf8Size) rest

/-- The flags of a regular expression: each a known one, none of them twice. -/
def readFlags (seen : List Char) (ok : Bool) (offset : Nat) : List Char → Bool × Cursor
  | [] => (ok, ⟨offset, []⟩)
  | c :: rest =>
      if c.isAlphanum || c == '$' || c == '_' then
        readFlags (c :: seen) (ok && "dgimsuvy".contains c && !seen.contains c) (offset + 1) rest
      else (ok, ⟨offset, c :: rest⟩)

/-! ### Punctuation -/

/-- The longest punctuation mark at the front of a text and its length. A greater-than sign is
always read alone: what it opens depends on the place. -/
def punct? : List Char → Option (Punct × Nat)
  | '.' :: '.' :: '.' :: _ => some (.ellipsis, 3)
  | '.' :: _ => some (.dot, 1)
  | '?' :: '?' :: '=' :: _ => some (.coalesceAssign, 3)
  | '?' :: '?' :: _ => some (.coalesce, 2)
  | '?' :: '.' :: d :: _ => if d.isDigit then some (.question, 1) else some (.optionalDot, 2)
  | '?' :: '.' :: [] => some (.optionalDot, 2)
  | '?' :: _ => some (.question, 1)
  | '=' :: '=' :: '=' :: _ => some (.same, 3)
  | '=' :: '=' :: _ => some (.eqEq, 2)
  | '=' :: '>' :: _ => some (.arrow, 2)
  | '=' :: _ => some (.assign, 1)
  | '!' :: '=' :: '=' :: _ => some (.notSame, 3)
  | '!' :: '=' :: _ => some (.notEq, 2)
  | '!' :: _ => some (.bang, 1)
  | '+' :: '+' :: _ => some (.plusPlus, 2)
  | '+' :: '=' :: _ => some (.plusAssign, 2)
  | '+' :: _ => some (.plus, 1)
  | '-' :: '-' :: _ => some (.minusMinus, 2)
  | '-' :: '=' :: _ => some (.minusAssign, 2)
  | '-' :: _ => some (.minus, 1)
  | '*' :: '*' :: '=' :: _ => some (.starStarAssign, 3)
  | '*' :: '*' :: _ => some (.starStar, 2)
  | '*' :: '=' :: _ => some (.starAssign, 2)
  | '*' :: _ => some (.star, 1)
  | '/' :: '=' :: _ => some (.slashAssign, 2)
  | '/' :: _ => some (.slash, 1)
  | '%' :: '=' :: _ => some (.percentAssign, 2)
  | '%' :: _ => some (.percent, 1)
  | '<' :: '<' :: '=' :: _ => some (.shlAssign, 3)
  | '<' :: '<' :: _ => some (.shl, 2)
  | '<' :: '=' :: _ => some (.le, 2)
  | '<' :: _ => some (.lt, 1)
  | '>' :: _ => some (.gt, 1)
  | '&' :: '&' :: '=' :: _ => some (.andAssign, 3)
  | '&' :: '&' :: _ => some (.andAnd, 2)
  | '&' :: '=' :: _ => some (.ampAssign, 2)
  | '&' :: _ => some (.amp, 1)
  | '|' :: '|' :: '=' :: _ => some (.orAssign, 3)
  | '|' :: '|' :: _ => some (.orOr, 2)
  | '|' :: '=' :: _ => some (.barAssign, 2)
  | '|' :: _ => some (.bar, 1)
  | '^' :: '=' :: _ => some (.caretAssign, 2)
  | '^' :: _ => some (.caret, 1)
  | '~' :: _ => some (.tilde, 1)
  | '@' :: _ => some (.atSign, 1)
  | ',' :: _ => some (.comma, 1)
  | ';' :: _ => some (.semicolon, 1)
  | ':' :: _ => some (.colon, 1)
  | '(' :: _ => some (.lparen, 1)
  | ')' :: _ => some (.rparen, 1)
  | '[' :: _ => some (.lbracket, 1)
  | ']' :: _ => some (.rbracket, 1)
  | '\x7b' :: _ => some (.lbrace, 1)
  | '\x7d' :: _ => some (.rbrace, 1)
  | _ => none

/-- The mark that a greater-than sign opens where an operator is expected. -/
def greater : List Char → Punct × Nat
  | '>' :: '>' :: '>' :: '=' :: _ => (.ushrAssign, 4)
  | '>' :: '>' :: '>' :: _ => (.ushr, 3)
  | '>' :: '>' :: '=' :: _ => (.shrAssign, 3)
  | '>' :: '>' :: _ => (.shr, 2)
  | '>' :: '=' :: _ => (.ge, 2)
  | _ => (.gt, 1)

end Scan

namespace Scanned

def make (kind : TokenKind) (here next : Cursor) (lineEnd ok : Bool) : Scanned :=
  ⟨⟨kind, ⟨here.offset, next.offset⟩, lineEnd, false⟩, here, next, ok⟩

open Scan

/-- The template piece whose text begins at `c`; its token starts at `start`. -/
def template (first : Bool) (start c : Cursor) (lineEnd : Bool) : Scanned :=
  let r := readTemplate (c.rest.length + 1) true c.offset c.rest
  let part : TemplatePart := match first, r.opens with
    | true, true => .head
    | true, false => .whole
    | false, true => .middle
    | false, false => .tail
  make (if r.closed then .template part r.wellEscaped else .invalid) start r.next lineEnd r.closed

/-- The token at `c`, where no white space is left. -/
def tokenAt (c : Cursor) (lineEnd : Bool) : Scanned :=
  match c.rest with
  | [] => make .endOfText c c lineEnd true
  | ch :: rest =>
      let next : Cursor := ⟨c.offset + ch.utf8Size, rest⟩
      if Identifier.isStart ch || ch == '\\' then
        let w := wordAt c
        if w.name.isEmpty then make .invalid c w.next lineEnd false
        else
          let s := make (.word (String.ofList w.name)) c w.next lineEnd w.wellFormed
          { s with token := { s.token with escaped := w.escaped } }
      else if ch.isDigit || (ch == '.' && (rest.head?.any Char.isDigit)) then
        let (kind, ok, after) := number c
        make kind c after lineEnd (ok && numberEnds after)
      else if ch == '"' || ch == '\'' then
        let (value, ok, after) := readString ch (rest.length + 1) next.offset rest
        make (.string (String.ofList value)) c after lineEnd ok
      else if ch == '\x60' then template true c next lineEnd
      else if ch == '#' then
        match rest with
        | '!' :: after =>
            if c.offset == 0 then
              let (_, after) := skipWhile (!Identifier.isLineEnd ·) ⟨c.offset + 2, after⟩
              make .hashbang c after lineEnd true
            else make .invalid c next lineEnd false
        | _ =>
            let w := wordAt next
            if w.name.isEmpty then make .invalid c w.next lineEnd false
            else make (.privateName (String.ofList w.name)) c w.next lineEnd w.wellFormed
      else
        match punct? c.rest with
        | some (mark, n) =>
            make (.punct mark) c ⟨c.offset + n, c.rest.drop n⟩ lineEnd true
        | none => make .invalid c next lineEnd false

/-- The next token behind white space and comments. -/
def after (dialect : Dialect) (c : Cursor) : Scanned :=
  let gap := skipGaps dialect.script .code false c.offset c.rest
  let s := tokenAt gap.next gap.lineEnd
  { s with wellFormed := s.wellFormed && gap.closed }

/-- The regular expression that starts at `start` with a slash, and the text behind the slash at
`c`. -/
def regex (start c : Cursor) (lineEnd : Bool) : Scanned :=
  let (closed, body) := readRegex false c.offset c.rest
  let (flagsOk, after) := readFlags [] true body.offset body.rest
  make (if closed then .regex else .invalid) start after lineEnd (closed && flagsOk)

/-- The operator that begins with the greater-than sign at `c`. -/
def operator (c : Cursor) (lineEnd : Bool) : Scanned :=
  let (mark, n) := greater c.rest
  make (.punct mark) c ⟨c.offset + n, c.rest.drop n⟩ lineEnd true

/-- The next piece among the children of markup: an angle bracket, a brace, or the text before one.
Closing marks do not stand in text. -/
def markupChild (c : Cursor) : Scanned :=
  match c.rest with
  | [] => make .endOfText c c false true
  | '<' :: rest => make (.punct .lt) c ⟨c.offset + 1, rest⟩ false true
  | '\x7b' :: rest => make (.punct .lbrace) c ⟨c.offset + 1, rest⟩ false true
  | _ =>
      let stops (ch : Char) : Bool := ch == '<' || ch == '>' || ch == '\x7b' || ch == '\x7d'
      let (_, after) := skipWhile (!stops ·) c
      let ok := match after.rest with
        | ch :: _ => ch == '<' || ch == '\x7b'
        | [] => true
      make (if ok then .markupText else .invalid) c after false ok

/-- The value of a markup attribute: a string read without escapes, or the next token. -/
def attributeValue (dialect : Dialect) (c : Cursor) : Scanned :=
  let gap := skipGaps dialect.script .code false c.offset c.rest
  match gap.next.rest with
  | ch :: rest =>
      if ch == '"' || ch == '\'' then
        let (_, after) := skipWhile (· != ch) ⟨gap.next.offset + 1, rest⟩
        match after.rest with
        | _ :: tail =>
            make (.string "") gap.next ⟨after.offset + 1, tail⟩ gap.lineEnd gap.closed
        | [] => make .invalid gap.next after gap.lineEnd false
      else
        let s := tokenAt gap.next gap.lineEnd
        { s with wellFormed := s.wellFormed && gap.closed }
  | [] => make .endOfText gap.next gap.next gap.lineEnd gap.closed

/-- Extend the name token `t`, with the text behind it at `c`, over hyphens and what follows them:
names in markup may contain them. -/
def markupName (t : Token) (c : Cursor) : Token × Cursor :=
  match c.rest with
  | '-' :: _ =>
      let (_, after) := skipWhile (fun ch => ch == '-' || Identifier.isPart ch) c
      ({ t with span := ⟨t.span.start, after.offset⟩ }, after)
  | _ => (t, c)

end Scanned

end FineGrain.Grammar
