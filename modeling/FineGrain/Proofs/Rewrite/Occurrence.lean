import FineGrain.Rewrite.Tree
/-!
The names that a tree reads, in the order in which they are written, each with the copy that it has
to be spelled as: the one that the innermost effect callback around it makes of its variable.
-/

namespace FineGrain

open Grammar Rewrite

/-- A name that is read somewhere, and the copy that stands for it there, if one does. -/
structure Occurrence where
  name : String
  span : Span
  copy : Option String
deriving DecidableEq, Repr

namespace Setting

def occurrence (s : Setting) (name : String) (span : Span) : Occurrence :=
  ⟨name, span, s.rename? span.start⟩

/-- The copies that a callback makes, and the names that are visible behind them. -/
def entry (s : Setting) (callback : Node) : List Snapshot × Names :=
  s.snapshots (s.slice callback.span) (s.copiedVariables callback) s.names.pushScope

def copies (s : Setting) (callback : Node) : List Snapshot := (s.entry callback).1

/-- The setting inside a callback. -/
def inside (s : Setting) (callback : Node) : Setting :=
  s.copying (s.copies callback) (s.entry callback).2

/-- The setting inside a call that makes an element: the name of an adapted tag is visible there. -/
def atElement? (s : Setting) (call : Span) : List Node → Option Setting
  | callee :: tag :: _ =>
      match s.isFactory callee, tag.label with
      | false, _ | _, .spread _ => none
      | true, _ => some (
          match s.tag tag with
          | .dynamic =>
              { s with names := (s.names.pushScope.allocate s.options.tempTagName (s.slice call)).2 }
          | _ => s)
  | _ => none

theorem factory_cases (s : Setting) (callee tag : Node) :
    s.isFactory callee = false ∨ s.isFactory callee = true ∧ (∃ last, tag.label = .spread last) ∨
      s.isFactory callee = true ∧ ∀ last, tag.label ≠ .spread last := by
  cases s.isFactory callee with
  | false => exact .inl rfl
  | true =>
    by_cases hspread : ∃ last, tag.label = .spread last
    · exact .inr (.inl ⟨rfl, hspread⟩)
    · exact .inr (.inr ⟨rfl, not_exists.1 hspread⟩)

end Setting

mutual

/-- The names that a tree reads. Those in the body of an effect callback are looked up inside it,
and those among its parameters around it. -/
def occurrences (s : Setting) : Node → List Occurrence
  | .mk label span parts =>
      match label with
      | .reference name => [s.occurrence name span]
      | .call =>
          match s.atElement? span parts with
          | some inside => occurrencesAll inside parts
          | none =>
              if parts.head?.any s.isEffect then effectOccurrences s parts
              else occurrencesAll s parts
      | _ => occurrencesAll s parts

def occurrencesAll (s : Setting) : List Node → List Occurrence
  | [] => []
  | n :: rest => occurrences s n ++ occurrencesAll s rest

def effectOccurrences (s : Setting) : List Node → List Occurrence
  | [] => []
  | [callee] => occurrences s callee
  | callee :: .mk label span parts :: rest =>
      let argument :=
        if isCallback label then callbackOccurrences s (s.inside (.mk label span parts)) parts
        else occurrences s (.mk label span parts)
      occurrences s callee ++ argument ++ occurrencesAll s rest

/-- The names that the parts of a callback read, the last of which is its body. -/
def callbackOccurrences (s inside : Setting) : List Node → List Occurrence
  | [] => []
  | [.mk (.body _) _ parts] => occurrencesAll inside parts
  | n :: rest => occurrences s n ++ callbackOccurrences s inside rest

end

variable {s : Setting}

theorem occurrences_paren {span : Span} {e : Node} :
    occurrences s (.mk .paren span [e]) = occurrences s e := by
  simp [occurrences, occurrencesAll]

theorem occurrences_inner (n : Node) : occurrences s n.inner = occurrences s n := by
  fun_induction Node.inner n with
  | case1 span e ih => rw [ih, occurrences_paren]
  | case2 n hn => rfl

end FineGrain
