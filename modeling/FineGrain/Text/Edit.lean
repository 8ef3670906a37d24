import FineGrain.Text.Span
/-!
Edits over a text that stays fixed. An edit replaces one byte range; a list of edits is kept sorted
and free of overlaps, and is spliced into a region of the text in one pass.
-/

namespace FineGrain

/-- The replacement of `span` by `text`; an empty span makes it an insertion. -/
structure Edit where
  span : Span
  text : List Char
deriving DecidableEq, Repr, Inhabited

/-- Edits sorted by span, no two of which overlap. -/
structure EditList where
  edits : List Edit
deriving DecidableEq, Repr, Inhabited

namespace EditList

def empty : EditList := ⟨[]⟩

def isEmpty (l : EditList) : Bool := l.edits.isEmpty

def size (l : EditList) : Nat := l.edits.length

def splitAt (l : EditList) (span : Span) : List Edit × List Edit :=
  l.edits.span (·.span.le span)

/-- Whether the last edit before the insertion point or the first one after it overlaps `span`. -/
def blocked (before after : List Edit) (span : Span) : Bool :=
  before.getLast?.any (·.span.overlaps span) || after.head?.any (·.span.overlaps span)

/-- Record the replacement of `span` by `text`, after the edits with the same span. `none` when it
overlaps a neighbour; then nothing is recorded. -/
def replace? (l : EditList) (span : Span) (text : List Char) : Option EditList :=
  let (before, after) := l.splitAt span
  if blocked before after span then none else some ⟨before ++ ⟨span, text⟩ :: after⟩

/-- Record a replacement, or leave the list alone when it overlaps. -/
def replace (l : EditList) (span : Span) (text : List Char) : EditList :=
  (l.replace? span text).getD l

def insert (l : EditList) (offset : Nat) (text : List Char) : EditList :=
  l.replace (Span.point offset) text

/-- The list that records `edits` one after another. -/
def ofEdits (edits : List Edit) : EditList :=
  edits.foldl (fun l e => l.replace e.span e.text) empty

/-- The edits that lie wholly inside `region`. -/
def inside (l : EditList) (region : Span) : List Edit :=
  l.edits.filter fun e => region.start ≤ e.span.start && e.span.stop ≤ region.stop

def splice (text : List Char) (stop : Nat) : Nat → List Edit → Option (List Char)
  | cursor, [] => Text.slice? text ⟨cursor, stop⟩
  | cursor, e :: rest => do
      let kept ← Text.slice? text ⟨cursor, e.span.start⟩
      let tail ← splice text stop e.span.stop rest
      return kept ++ e.text ++ tail

/-- The text of `region` with the edits inside it applied; `none` when a cut falls outside the text
or off a character boundary. -/
def spliceIn? (l : EditList) (text : List Char) (region : Span) : Option (List Char) :=
  splice text region.stop region.start (l.inside region)

/-- The text of `region` with the edits inside it applied, for edits and regions that come from the
text itself. -/
def spliceIn (l : EditList) (text : List Char) (region : Span) : List Char :=
  (l.spliceIn? text region).getD []

end EditList

end FineGrain
