/-!
Bare scalars of TOML: numbers, dates and times. Only their form is checked, nothing here needs their
value.
-/

namespace FineGrain.Toml

/-- Groups of characters with single underscores between them. -/
def isGrouped (p : Char → Bool) (cs : List Char) : Bool :=
  (cs.splitOn '_').all fun group => !group.isEmpty && group.all p

def isHexDigit (c : Char) : Bool :=
  c.isDigit || ('a' ≤ c && c ≤ 'f') || ('A' ≤ c && c ≤ 'F')

/-- What follows an optional sign. -/
def unsigned : List Char → List Char
  | '+' :: rest | '-' :: rest => rest
  | cs => cs

/-- Decimal digits without a leading zero. -/
def isDecimal (cs : List Char) : Bool :=
  isGrouped Char.isDigit cs && (cs == ['0'] || cs.head? != some '0')

def isInteger (cs : List Char) : Bool :=
  match cs with
  | '0' :: 'x' :: digits => isGrouped isHexDigit digits
  | '0' :: 'o' :: digits => isGrouped (fun c => '0' ≤ c && c ≤ '7') digits
  | '0' :: 'b' :: digits => isGrouped (fun c => c == '0' || c == '1') digits
  | _ => isDecimal (unsigned cs)

/-- Split at the first character that satisfies `p`; that character belongs to neither part. -/
def splitFirst? (p : Char → Bool) (cs : List Char) : Option (List Char × List Char) :=
  match cs.span (fun c => !p c) with
  | (before, _ :: after) => some (before, after)
  | (_, []) => none

/-- A number with a fraction, an exponent or both, or one of the two special values. -/
def isFloat (cs : List Char) : Bool :=
  let body := unsigned cs
  let withFraction (cs : List Char) : Bool :=
    match splitFirst? (· == '.') cs with
    | some (whole, fraction) => isDecimal whole && isGrouped Char.isDigit fraction
    | none => false
  body == ['i', 'n', 'f'] || body == ['n', 'a', 'n'] ||
    match splitFirst? (fun c => c == 'e' || c == 'E') body with
    | some (mantissa, exponent) =>
        (isDecimal mantissa || withFraction mantissa) &&
          isGrouped Char.isDigit (unsigned exponent)
    | none => withFraction body

/-- The number that a run of digits spells. -/
def digits? (cs : List Char) : Option Nat :=
  if cs.all Char.isDigit then
    some (cs.foldl (fun n c => 10 * n + (c.toNat - '0'.toNat)) 0)
  else none

/-- Whether two digits spell a number between the bounds. -/
def isBetween (lo hi : Nat) (cs : List Char) : Bool :=
  cs.length == 2 && (digits? cs).any fun n => lo ≤ n && n ≤ hi

def daysIn (year month : Nat) : Nat :=
  if month == 2 then if year % 4 == 0 && (year % 100 != 0 || year % 400 == 0) then 29 else 28
  else if [4, 6, 9, 11].contains month then 30 else 31

def isDate (cs : List Char) : Bool :=
  match cs.splitOn '-' with
  | [year, month, day] =>
      match digits? year, digits? month with
      | some y, some m => year.length == 4 && isBetween 1 12 month && isBetween 1 (daysIn y m) day
      | _, _ => false
  | _ => false

/-- A time of day; a fraction of a second has at least one digit. -/
def isTime (cs : List Char) : Bool :=
  match cs.splitOn ':' with
  | [hour, minute, second] =>
      isBetween 0 23 hour && isBetween 0 59 minute && isBetween 0 60 (second.take 2) &&
        match second.drop 2 with
        | [] => true
        | '.' :: fraction => !fraction.isEmpty && fraction.all Char.isDigit
        | _ => false
  | _ => false

/-- The time of day in front of an offset from universal time. -/
def withoutOffset (cs : List Char) : List Char :=
  match cs.getLast? with
  | some 'Z' | some 'z' => cs.dropLast
  | _ =>
      match splitFirst? (fun c => c == '+' || c == '-') cs with
      | some (time, offset) =>
          match offset.splitOn ':' with
          | [hours, minutes] => if isBetween 0 23 hours && isBetween 0 59 minutes then time else cs
          | _ => cs
      | none => cs

/-- A date, a time of day, or both joined by a letter or a blank. -/
def isMoment (cs : List Char) : Bool :=
  isDate cs || isTime cs ||
    match cs.drop 10 with
    | mark :: time =>
        isDate (cs.take 10) && (mark == 'T' || mark == 't' || mark == ' ') &&
          isTime (withoutOffset time)
    | [] => false

/-- Whether a bare word is a scalar other than a truth value. -/
def isScalar (cs : List Char) : Bool := isInteger cs || isFloat cs || isMoment cs

end FineGrain.Toml
