/-!
Generated names. A generated name is its base followed by the fewest underscores that keep it clear
of the text it will be visible in, of the reserved names and of the names already handed out in the
open name scopes.
-/

namespace FineGrain

namespace Text

/-- Whether `part` occurs somewhere in a text. The empty text occurs everywhere. -/
def occurs (part : List Char) : List Char → Bool
  | [] => part.isEmpty
  | c :: rest => part.isPrefixOf (c :: rest) || occurs part rest

end Text

/-- What a generated name must avoid besides the text: the reserved names, and the names handed out
in each open scope, innermost first. -/
structure Names where
  reserved : List String
  scopes : List (List String)
deriving DecidableEq, Repr, Inhabited

namespace Names

/-- One open scope, nothing handed out. -/
def ofReserved (reserved : List String) : Names := ⟨reserved, [[]]⟩

/-- No scope at all, so names handed out are forgotten until one is opened. -/
def unscoped : Names := ⟨[], []⟩

/-- Every name that may not be handed out again. -/
def taken (names : Names) : List String := names.reserved ++ names.scopes.flatten

def candidate (base : String) (n : Nat) : String := base ++ String.ofList (List.replicate n '_')

/-- Whether `name` may be handed out for use inside `visible`. -/
def isFree (names : Names) (visible : List Char) (name : String) : Bool :=
  !Text.occurs name.toList visible && !names.taken.contains name

/-- Remember `name` in the innermost scope. -/
def record (names : Names) (name : String) : Names :=
  match names.scopes with
  | [] => names
  | scope :: outer => { names with scopes := (name :: scope) :: outer }

/-- The free candidate with the fewest underscores. A candidate longer than the text cannot occur
in it, and only as many candidates can be taken as there are taken names, so the search below
reaches a free one. -/
def fresh (names : Names) (base : String) (visible : List Char) : String :=
  let bound := visible.length + names.taken.length + 2
  match (List.range bound).find? (fun n => names.isFree visible (candidate base n)) with
  | some n => candidate base n
  | none => candidate base bound

/-- Hand out a name derived from `base` for use inside `visible`. -/
def allocate (names : Names) (base : String) (visible : List Char) : String × Names :=
  let name := names.fresh base visible
  (name, names.record name)

def pushScope (names : Names) : Names := { names with scopes := [] :: names.scopes }

/-- Close the innermost scope and release its names; the outermost scope stays. -/
def popScope (names : Names) : Names :=
  match names.scopes with
  | _ :: outer :: rest => { names with scopes := outer :: rest }
  | _ => names

end Names

end FineGrain
