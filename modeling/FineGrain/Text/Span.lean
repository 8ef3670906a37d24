/-!
Byte ranges over text. Offsets count the bytes of the UTF-8 form, so an offset can fall inside a
character; slicing there is refused rather than rounded.
-/

namespace FineGrain

/-- The range from byte `start` up to, but not including, byte `stop`. -/
structure Span where
  start : Nat
  stop : Nat
deriving DecidableEq, Repr, Inhabited

namespace Span

/-- The empty range at `offset`: where an insertion happens. -/
def point (offset : Nat) : Span := ⟨offset, offset⟩

/-- Two ranges overlap when each begins before the other ends. An empty range never overlaps
another at the same offset, nor a range whose edge it touches. -/
def overlaps (a b : Span) : Bool := a.start < b.stop && b.start < a.stop

/-- The order of edits in a list: by start, then by end. -/
def le (a b : Span) : Bool := a.start < b.start || (a.start == b.start && a.stop ≤ b.stop)

end Span

namespace Text

def byteLength : List Char → Nat
  | [] => 0
  | c :: rest => c.utf8Size + byteLength rest

/-- What is left of a text after its first `n` bytes, if a character starts (or the text ends)
there. -/
def dropBytes : Nat → List Char → Option (List Char)
  | 0, cs => some cs
  | _ + 1, [] => none
  | n + 1, c :: rest =>
      if c.utf8Size ≤ n + 1 then dropBytes (n + 1 - c.utf8Size) rest else none

/-- The first `n` bytes of a text, if a character ends there. -/
def takeBytes : Nat → List Char → Option (List Char)
  | 0, _ => some []
  | _ + 1, [] => none
  | n + 1, c :: rest =>
      if c.utf8Size ≤ n + 1 then (takeBytes (n + 1 - c.utf8Size) rest).map (c :: ·) else none

/-- The part of a text inside `s`, if `s` is in order, in range and ends on character
boundaries. -/
def slice? (text : List Char) (s : Span) : Option (List Char) :=
  if s.start ≤ s.stop then (dropBytes s.start text).bind (takeBytes (s.stop - s.start)) else none

/-- The part of a text inside `s`, empty where there is none. -/
def slice (text : List Char) (s : Span) : List Char := (slice? text s).getD []

end Text

end FineGrain
