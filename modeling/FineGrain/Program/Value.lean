/-!
Values of programs, and their texts.
-/

namespace FineGrain

/-- A value: nothing, a truth value, a 64-bit integer, a string or a list. -/
inductive Value where
  | null
  | boolean (b : Bool)
  | integer (n : Int)
  | string (s : String)
  | list (items : List Value)
deriving Repr, Inhabited

namespace Value

mutual

def same : Value → Value → Bool
  | null, null => true
  | boolean a, boolean b => a == b
  | integer a, integer b => a == b
  | string a, string b => a == b
  | list as, list bs => sameItems as bs
  | _, _ => false

def sameItems : List Value → List Value → Bool
  | [], [] => true
  | a :: as, b :: bs => same a b && sameItems as bs
  | _, _ => false

end

/-- Everything but `null` and `false` counts as true. -/
def isTruthy : Value → Bool
  | null | boolean false => false
  | _ => true

/-- The integer that a value is; any other value counts as zero. -/
def toInt : Value → Int
  | integer n => n
  | _ => 0

/-- The integer of 64 bits that is congruent to `n`. -/
def wrap (n : Int) : Value := integer (n.bmod 0x10000000000000000)

def escaped (c : Char) : String :=
  match c with
  | '"' => "\\\""
  | '\\' => "\\\\"
  | '\x08' => "\\b"
  | '\t' => "\\t"
  | '\n' => "\\n"
  | '\x0c' => "\\f"
  | '\r' => "\\r"
  | c =>
      if c.toNat < 0x20 then
        "\\u00" ++ String.ofList [Nat.digitChar (c.toNat / 16), Nat.digitChar (c.toNat % 16)]
      else c.toString

def quoted (s : String) : String := "\"" ++ String.join (s.toList.map escaped) ++ "\""

mutual

/-- The compact text of a value in which a string is quoted. -/
def json : Value → String
  | null => "null"
  | boolean b => if b then "true" else "false"
  | integer n => toString n
  | string s => quoted s
  | list items => "[" ++ ",".intercalate (jsonItems items) ++ "]"

def jsonItems : List Value → List String
  | [] => []
  | v :: rest => json v :: jsonItems rest

end

/-- The text of a value in which a string stands for itself. -/
def display : Value → String
  | string s => s
  | v => json v

end Value

end FineGrain
