import FineGrain.Text.Span
/-!
Tokens of the source language, and the classes of words and operators that the grammar asks for.
-/

namespace FineGrain.Grammar

inductive Punct where
  | lbrace | rbrace | lparen | rparen | lbracket | rbracket
  | dot | ellipsis | semicolon | comma | colon | question | optionalDot | arrow | atSign
  | lt | gt | le | ge | eqEq | notEq | same | notSame
  | plus | minus | star | slash | percent | starStar | plusPlus | minusMinus
  | shl | shr | ushr | amp | bar | caret | bang | tilde
  | andAnd | orOr | coalesce
  | assign | plusAssign | minusAssign | starAssign | slashAssign | percentAssign | starStarAssign
  | shlAssign | shrAssign | ushrAssign | ampAssign | barAssign | caretAssign
  | andAssign | orAssign | coalesceAssign
deriving DecidableEq, Repr, Inhabited

/-- Where a piece of a template stands: the whole template, before the first substitution, between
two, or after the last. -/
inductive TemplatePart where
  | whole | head | middle | tail
deriving DecidableEq, Repr, Inhabited

/-- Kinds of token. Words cover identifiers and keywords alike; `invalid` stands for text that is
no token. -/
inductive TokenKind where
  | endOfText
  | word (name : String)
  | privateName (name : String)
  | string (value : String)
  | number
  | bigint
  | regex
  | template (part : TemplatePart) (wellEscaped : Bool)
  | punct (mark : Punct)
  | markupText
  | hashbang
  | invalid
deriving DecidableEq, Repr, Inhabited

/-- A token: its kind and place, whether a line ends between it and the token before, and whether
it is a word written with an escape. -/
structure Token where
  kind : TokenKind
  span : Span
  afterLineEnd : Bool
  escaped : Bool
deriving DecidableEq, Repr, Inhabited

namespace Token

def isPunct (t : Token) (mark : Punct) : Bool := t.kind == .punct mark

def isWord (t : Token) (name : String) : Bool := t.kind == .word name

def word? (t : Token) : Option String :=
  match t.kind with
  | .word name => some name
  | _ => none

end Token

namespace Word

/-- Words that are never identifiers, whatever the context. -/
def reserved : List String :=
  ["break", "case", "catch", "class", "const", "continue", "debugger", "default", "delete", "do",
   "else", "enum", "export", "extends", "false", "finally", "for", "function", "if", "import",
   "in", "instanceof", "new", "null", "return", "super", "switch", "this", "throw", "true", "try",
   "typeof", "var", "void", "while", "with"]

/-- Words with a meaning of their own in some place, identifiers elsewhere. -/
def contextual : List String :=
  ["await", "yield", "let", "static", "async", "get", "set", "of", "as", "from", "target", "meta",
   "implements", "interface", "package", "private", "protected", "public", "abstract", "accessor",
   "any", "asserts", "assert", "bigint", "boolean", "constructor", "declare", "global", "infer",
   "intrinsic", "is", "keyof", "module", "namespace", "never", "number", "object", "out",
   "override", "readonly", "require", "satisfies", "string", "symbol", "type", "undefined",
   "unique", "unknown", "using"]

/-- Words that can name a binding or be referred to. -/
def isIdentifier (name : String) : Bool := !reserved.contains name

/-- Words that are a keyword in some place. -/
def isKeyword (name : String) : Bool := reserved.contains name || contextual.contains name

end Word

namespace Punct

def isAssignment : Punct → Bool
  | assign | plusAssign | minusAssign | starAssign | slashAssign | percentAssign | starStarAssign
  | shlAssign | shrAssign | ushrAssign | ampAssign | barAssign | caretAssign
  | andAssign | orAssign | coalesceAssign => true
  | _ => false

/-- The operators written before their operand, apart from the words. -/
def isUnary : Punct → Bool
  | plus | minus | bang | tilde => true
  | _ => false

end Punct

end FineGrain.Grammar
