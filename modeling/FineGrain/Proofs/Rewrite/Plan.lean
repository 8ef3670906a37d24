import FineGrain.Proofs.Rewrite.Occurrence
/-!
Where the text of a rewrite comes from. A plan takes new text apart into pieces: what is copied from
the unit, what is made up, and the names that are read. A rewrite looks at a name and spells it anew,
or it copies a stretch of the unit that the name stands in and never looks at it, or it drops it.
-/

namespace FineGrain

open Grammar Rewrite

/-- The text of a binding that is added: a helper is called in it, for a tag with what is written
behind. -/
def Generated.text (helper : String) : Generated → List Char
  | .copy name source => ("const " ++ name ++ " = " ++ helper ++ "(" ++ source ++ ");").toList
  | .tag name => ("const " ++ name ++ " = " ++ helper ++ "(").toList

/-- A piece of new text.

* `source`: a stretch of the unit that no name is read in; `made`: text that is made up
* `binds`: a binding that is added, and the helper that it calls
* `spelled`: a name that is read; `expanded`: a shorthand property that reads one; `tag`: one that
  an element is called by
* `leaked`: a stretch of the unit that is copied with the names that are read in it
* `dropped`: names that are no longer read -/
inductive Piece where
  | source (span : Span)
  | made (text : List Char)
  | binds (binding : Generated) (helper : String)
  | spelled (o : Occurrence)
  | expanded (o : Occurrence)
  | tag (o : Occurrence)
  | leaked (span : Span) (inside : List Occurrence)
  | dropped (gone : List Occurrence)
deriving DecidableEq, Repr

namespace Piece

def render (text : List Char) : Piece → List Char
  | source span => Text.slice text span
  | made t => t
  | binds binding helper => binding.text helper
  | spelled o =>
      match o.copy with
      | some copy => copy.toList
      | none => Text.slice text o.span
  | expanded o =>
      match o.copy with
      | some copy => o.name.toList ++ ": ".toList ++ copy.toList
      | none => Text.slice text o.span
  | tag o => (o.copy.getD o.name).toList
  | leaked span _ => Text.slice text span
  | dropped _ => []

/-- The names that a piece accounts for. -/
def occurrences : Piece → List Occurrence
  | source _ | made _ | binds _ _ => []
  | spelled o | expanded o | tag o => [o]
  | leaked _ inside => inside
  | dropped gone => gone

end Piece

def render (text : List Char) (plan : List Piece) : List Char := plan.flatMap (Piece.render text)

/-- A stretch of the unit that is replaced, and what by. -/
structure Site where
  span : Span
  plan : List Piece
deriving DecidableEq, Repr

/-- What stands between two offsets once the sites there are replaced. -/
def fill (stop : Nat) : Nat → List Site → List Piece
  | a, [] => [.source ⟨a, stop⟩]
  | a, site :: rest =>
      .source ⟨a, site.span.start⟩ :: site.plan ++ fill stop site.span.stop rest

def spanPlan (span : Span) (sites : List Site) : List Piece := fill span.stop span.start sites

def bracedPlan (plan : List Piece) : List Piece := .made ['{'] :: plan ++ [.made ['}']]

def deferredPlan (plan : List Piece) : List Piece :=
  .made "(() => ".toList :: plan ++ [.made ")()".toList]

def spreadPlan (plan : List Piece) : List Piece :=
  .made " \x7b...".toList :: plan ++ [.made ['}']]

def assignedPlan (name : String) (value : List Piece) : List Piece :=
  .made (' ' :: name.toList ++ ['=']) :: value

/-- Markup with the given plan for the name behind the first angle bracket. -/
def taggedPlan (front : List Piece) (tag : String) (attributes : List Piece)
    (children : Option (List Piece)) : List Piece :=
  match children with
  | some children =>
      .made ['<'] :: front ++ attributes ++ .made ['>'] :: children ++
        [.made ("</".toList ++ tag.toList ++ ['>'])]
  | none => .made ['<'] :: front ++ attributes ++ [.made " />".toList]

def adaptedPlan (adapter temp : String) (tag attributes children : List Piece) : List Piece :=
  .made "(() => \x7b ".toList :: .binds (.tag temp) adapter :: tag ++
    .made "); return ".toList ::
      taggedPlan [.made temp.toList] temp attributes (some children) ++ [.made "; \x7d)()".toList]

def objectPlan (properties : List (List Piece)) : List Piece :=
  match properties with
  | [] => [.made ['{', '}']]
  | _ => .made "\x7b ".toList :: [.made ", ".toList].intercalate properties ++
      [.made " \x7d".toList]

def tagPlan (s : Setting) (tag : Node) (name : String) : List Piece :=
  match tag.inner with
  | .mk (.reference own) span _ => [.tag (s.occurrence own span)]
  | _ => [.dropped (occurrences s tag), .made name.toList]

/-- The name that a shorthand property reads. -/
def shorthand? (s : Setting) : List Node → Option Occurrence
  | [.mk (.key _) _ [], .mk (.reference name) span _] => some (s.occurrence name span)
  | _ => none

/-- The value of an attribute whose property has a string literal for a value. -/
def quotedPlan? (s : Setting) : List Node → Option (List Piece)
  | _ :: .mk (.string _) span _ :: _ =>
      some (if Attribute.isPlainQuoted (s.slice span) then [.source span]
        else bracedPlan [.source span])
  | _ => none

/-- The names that the key of a property reads. -/
def keyOccurrences (s : Setting) : List Node → List Occurrence
  | [] => []
  | key :: _ => occurrences s key

/-- The statements that make some copies. -/
def declarationPlan (s : Setting) (copies : List Snapshot) : List Piece :=
  [.made [' ']].intercalate
    (copies.map fun c => [.binds (.copy c.copy c.source) s.options.peekName])

/-- The sites of a callback with its copies made at the top of the body. -/
def copiedSites (s : Setting) (copies : List Snapshot) (concise : Bool) (directives : List Span)
    (body : Span) (sites : List Site) : List Site :=
  if copies.isEmpty then sites
  else if concise then
    ⟨Span.point body.start,
        .made "\x7b ".toList :: declarationPlan s copies ++ [.made " return ".toList]⟩ ::
      sites ++ [⟨Span.point body.stop, [.made "; \x7d".toList]⟩]
  else
    let (offset, ahead) := s.bodyTop directives body
    ⟨Span.point offset, .made ahead :: declarationPlan s copies⟩ :: sites

mutual

/-- The stretches of a tree that are replaced, or that a name is read in. -/
def sites (s : Setting) : Node → List Site
  | .mk label span parts =>
      match label with
      | .call =>
          match elementPlan? s span parts with
          | some (plan, _) => [⟨span, plan⟩]
          | none => if parts.head?.any s.isEffect then effectSites s parts else sitesAll s parts
      | .container => if s.frame.imported then containerSites s parts else sitesAll s parts
      | .reference name => [⟨span, [.spelled (s.occurrence name span)]⟩]
      | .property .shorthand _ =>
          match shorthand? s parts with
          | some o => [⟨span, [.expanded o]⟩]
          | none => sitesAll s parts
      | _ => sitesAll s parts

def sitesAll (s : Setting) : List Node → List Site
  | [] => []
  | n :: rest => sites s n ++ sitesAll s rest

def containerSites (s : Setting) : List Node → List Site
  | [] => []
  | e :: rest =>
      let first :=
        match positionPlan? s (spanPlan e.span (sites s e)) e with
        | some plan => [⟨e.span, plan⟩]
        | none => sites s e
      first ++ sitesAll s rest

/-- The plan of an expression in a position that is read again and again, given the plan of its
text with edits made. -/
def positionPlan? (s : Setting) (whole : List Piece) : Node → Option (List Piece)
  | .mk label _ parts =>
      match label, parts with
      | .reference _, _ | .arrow _, _ | .function .expression, _ | .call, _ | .string _, _
      | .number, _ | .bigint, _ | .boolean, _ | .null, _ | .regex, _ | .element, _
      | .fragment, _ => none
      | .template, [] => none
      | .paren, [e] => positionPlan? s whole e
      | .object, properties => some (objectPlan (propertyPlans s properties))
      | .sequence, _ => some (deferredPlan (.made ['('] :: whole ++ [.made [')']]))
      | _, _ => some (deferredPlan whole)

/-- The plans of the properties of an object literal in such a position: the key of a property with
a value is copied as written. -/
def propertyPlans (s : Setting) : List Node → List (List Piece)
  | [] => []
  | .mk label span parts :: rest =>
      let first :=
        match label with
        | .spread _ => .made "...".toList :: operandPlan s parts
        | .property .value _ =>
            .leaked ⟨span.start, (parts[1]?.map (·.span.start)).getD span.stop⟩
              (keyOccurrences s parts) :: valuePlan s parts
        | _ => spanPlan span (sites s (.mk label span parts))
      first :: propertyPlans s rest

def valuePlan (s : Setting) : List Node → List Piece
  | _ :: e :: more =>
      let whole := spanPlan e.span (sites s e)
      (positionPlan? s whole e).getD whole ++ [.dropped (occurrencesAll s more)]
  | _ => []

def operandPlan (s : Setting) : List Node → List Piece
  | e :: more => spanPlan e.span (sites s e) ++ [.dropped (occurrencesAll s more)]
  | [] => []

/-- The plan of the element that a call makes, and whether that is markup. -/
def elementPlan? (s : Setting) (call : Span) : List Node → Option (List Piece × Bool)
  | callee :: tag :: rest =>
      match s.isFactory callee, tag.label with
      | false, _ | _, .spread _ => none
      | true, _ => some (
          match s.tag tag with
          | .name name =>
              let attributes := propsPlan s rest
              let children := childrenPlan s rest
              (.dropped (occurrences s callee) ::
                taggedPlan (tagPlan s tag name) name attributes
                  (if rest.length ≤ 1 then none else some children), true)
          | .fragment =>
              (.dropped (occurrences s callee ++ occurrences s tag) :: .made "<>".toList ::
                .dropped (keyOccurrences s rest) :: childrenPlan s rest ++
                  [.made "</>".toList], true)
          | .dynamic =>
              let (temp, names) := s.names.pushScope.allocate s.options.tempTagName (s.slice call)
              let inside := { s with names := names }
              (.dropped (occurrences inside callee) ::
                adaptedPlan s.options.adapterName temp (spanPlan tag.span (sites inside tag))
                  (propsPlan inside rest) (childrenPlan inside rest), false))
  | _ => none

def propsPlan (s : Setting) : List Node → List Piece
  | [] => []
  | e :: _ => attributePlan s (spanPlan e.span (sites s e)) e

def attributePlan (s : Setting) (whole : List Piece) : Node → List Piece
  | .mk label span parts =>
      match label, parts with
      | .spread _, parts => spreadPlan (operandPlan s parts)
      | .paren, [e] => attributePlan s whole e
      | .null, _ => [.dropped (occurrencesAll s parts)]
      | .reference "undefined", _ => [.dropped [s.occurrence "undefined" span]]
      | .object, properties => attributesPlan s properties
      | _, _ => spreadPlan whole

def attributesPlan (s : Setting) : List Node → List Piece
  | [] => []
  | .mk label span parts :: rest =>
      let first :=
        match label with
        | .property form computed =>
            match Attribute.name? form computed parts, quotedPlan? s parts with
            | some name, some quoted =>
                .dropped (occurrencesAll s parts) :: assignedPlan name quoted
            | some name, none =>
                .dropped (keyOccurrences s parts) ::
                  assignedPlan name (bracedPlan (valuePlan s parts))
            | none, _ => spreadPlan (bracedPlan (spanPlan span (sites s (.mk label span parts))))
        | .spread _ => spreadPlan (operandPlan s parts)
        | _ => spanPlan span (sites s (.mk label span parts))
      first ++ attributesPlan s rest

def childrenPlan (s : Setting) : List Node → List Piece
  | [] => []
  | _ :: children => childPlans s children

def childPlans (s : Setting) : List Node → List Piece
  | [] => []
  | .mk label span parts :: rest =>
      let whole := spanPlan span (sites s (.mk label span parts))
      let first :=
        match label with
        | .spread _ => bracedPlan (operandPlan s parts)
        | .string value =>
            .dropped (occurrencesAll s parts) ::
              if Attribute.isPlainText value (s.slice span) then [.made value.toList]
              else bracedPlan [.source span]
        | .element | .fragment => whole
        | .call =>
            match elementPlan? s span parts with
            | some (plan, isMarkup) => if isMarkup then plan else bracedPlan plan
            | none => bracedPlan whole
        | _ => bracedPlan ((positionPlan? s whole (.mk label span parts)).getD whole)
      first ++ childPlans s rest

def effectSites (s : Setting) : List Node → List Site
  | [] => []
  | [callee] => sites s callee
  | callee :: .mk label span parts :: rest =>
      let argument :=
        if isCallback label then
          let callback := Node.mk label span parts
          [⟨span, bodyPlan s (s.inside callback) (s.copies callback) (label == .arrow true) span []
            parts⟩]
        else sites s (.mk label span parts)
      sites s callee ++ argument ++ sitesAll s rest

/-- The plan of a callback: what stands in front of the body is copied as written. -/
def bodyPlan (s inside : Setting) (copies : List Snapshot) (concise : Bool) (callback : Span)
    (front : List Occurrence) : List Node → List Piece
  | [] => [.leaked callback front]
  | [.mk (.body directives) span parts] =>
      .leaked ⟨callback.start, span.start⟩ front ::
        fill callback.stop span.start
          (copiedSites s copies concise directives span (sitesAll inside parts))
  | n :: rest =>
      bodyPlan s inside copies concise callback (front ++ occurrences s n) rest

end

end FineGrain
