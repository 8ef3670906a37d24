import FineGrain.Rewrite.Attribute
import FineGrain.Rewrite.Draft
import FineGrain.Rewrite.Setting
/-!
Edits of a syntax tree. What a tree does not match is left as written, and its parts are looked at in
turn; new text for what it does match is put together from the new texts of the parts.
-/

namespace FineGrain.Rewrite

open Grammar

/-- New text for a call that makes an element: markup, or an expression that answers markup. -/
structure Element where
  text : List Char
  isMarkup : Bool
deriving DecidableEq, Repr

def braced (text : List Char) : List Char := '{' :: text ++ ['}']

/-- Text that is read anew whenever its position is. -/
def deferred (text : List Char) : List Char := "(() => ".toList ++ text ++ ")()".toList

def spreadAttribute (text : List Char) : List Char := " \x7b...".toList ++ text ++ ['}']

def tagged (tag : String) (attributes : List Char) (children : Option (List Char)) : List Char :=
  match children with
  | some children =>
      '<' :: tag.toList ++ attributes ++ '>' :: children ++ "</".toList ++ tag.toList ++ ['>']
  | none => '<' :: tag.toList ++ attributes ++ " />".toList

/-- The expression that binds an adapted tag and answers the element. -/
def adapted (adapter temp : String) (tag attributes children : List Char) : List Char :=
  "(() => \x7b const ".toList ++ temp.toList ++ " = ".toList ++ adapter.toList ++ '(' :: tag ++
    "); return ".toList ++ tagged temp attributes (some children) ++ "; \x7d)()".toList

def objectLiteral (properties : List (List Char)) : List Char :=
  match properties with
  | [] => ['{', '}']
  | _ => "\x7b ".toList ++ (", ".toList).intercalate properties ++ " \x7d".toList

/-- The name that a renamed shorthand property keeps, and the copy it reads. -/
def shorthandRename? (s : Setting) : List Node → Option (String × String)
  | _ :: .mk (.reference name) span _ :: _ => (s.rename? span.start).map (name, ·)
  | _ => none

def assignedAttribute (name : String) (value : List Char) : List Char :=
  ' ' :: name.toList ++ '=' :: value

/-- The value of an attribute whose property has a string literal for a value. -/
def quotedValue? (s : Setting) : List Node → Option (List Char)
  | _ :: .mk (.string _) span _ :: _ =>
      let raw := s.slice span
      some (if Attribute.isPlainQuoted raw then raw else braced raw)
  | _ => none

/-- Whether an argument of an effect hook is a function literal. -/
def isCallback : Label → Bool
  | .arrow _ | .function .expression => true
  | _ => false

mutual

/-- The edits that a tree calls for. -/
def edits (s : Setting) : Node → Draft (List Edit)
  | .mk label span parts =>
      match label with
      | .call =>
          match element? s span parts with
          | some element => do return [⟨span, (← element).text⟩]
          | none =>
              if parts.head?.any s.isEffect then effectEdits s parts else editsAll s parts
      | .container => if s.frame.imported then containerEdits s parts else editsAll s parts
      | .reference _ =>
          return (s.rename? span.start).toList.map fun copy => ⟨span, copy.toList⟩
      | .property .shorthand _ =>
          match shorthandRename? s parts with
          | some (name, copy) => return [⟨span, name.toList ++ ": ".toList ++ copy.toList⟩]
          | none => editsAll s parts
      | _ => editsAll s parts

def editsAll (s : Setting) : List Node → Draft (List Edit)
  | [] => return []
  | n :: rest => do
      let first ← edits s n
      let more ← editsAll s rest
      return first ++ more

/-- The edits of an expression in braces: unless it is left as written it is replaced whole. -/
def containerEdits (s : Setting) : List Node → Draft (List Edit)
  | [] => return []
  | e :: rest => do
      let whole := fun (_ : Unit) => do return s.spliced e.span (← edits s e)
      let first ← match position? s whole e with
        | some text => pure [⟨e.span, ← text⟩]
        | none => edits s e
      let more ← editsAll s rest
      return first ++ more

/-- New text for an expression in a position that is read again and again, given its text with
edits made; `none` where those are enough. An object literal is taken apart, so that each of its
values is such a position. -/
def position? (s : Setting) (whole : Unit → Draft (List Char)) :
    Node → Option (Draft (List Char))
  | .mk label _ parts =>
      match label, parts with
      | .reference _, _ | .arrow _, _ | .function .expression, _ | .call, _ | .string _, _
      | .number, _ | .bigint, _ | .boolean, _ | .null, _ | .regex, _ | .element, _
      | .fragment, _ => none
      | .template, [] => none
      | .paren, [e] => position? s whole e
      | .object, properties => some do return objectLiteral (← propertyTexts s properties)
      | .sequence, _ => some do return deferred ('(' :: (← whole ()) ++ [')'])
      | _, _ => some do return deferred (← whole ())

/-- The properties of an object literal in such a position. -/
def propertyTexts (s : Setting) : List Node → Draft (List (List Char))
  | [] => return []
  | .mk label span parts :: rest => do
      let first ← match label with
        | .spread _ => pure ("...".toList ++ (← operandText s parts))
        | .property .value _ => do
            let key := s.slice ⟨span.start, (parts[1]?.map (·.span.start)).getD span.stop⟩
            pure (key ++ (← valueText s parts))
        | _ => do pure (s.spliced span (← edits s (.mk label span parts)))
      let more ← propertyTexts s rest
      return first :: more

def valueText (s : Setting) : List Node → Draft (List Char)
  | _ :: e :: _ =>
      let whole := fun (_ : Unit) => do return s.spliced e.span (← edits s e)
      (position? s whole e).getD (whole ())
  | _ => return []

/-- The text of the first part. -/
def operandText (s : Setting) : List Node → Draft (List Char)
  | e :: _ => do return s.spliced e.span (← edits s e)
  | [] => return []

/-- The element that a call makes, from its callee and arguments. -/
def element? (s : Setting) (call : Span) : List Node → Option (Draft Element)
  | callee :: tag :: rest =>
      match s.isFactory callee, tag.label with
      | false, _ | _, .spread _ => none
      | true, _ => some (
          match s.tag tag with
          | .name name => do
              let attributes ← propsText s rest
              let children ← childrenText s rest
              return ⟨tagged name attributes (if rest.length ≤ 1 then none else some children), true⟩
          | .fragment => do
              let children ← childrenText s rest
              return ⟨"<>".toList ++ children ++ "</>".toList, true⟩
          | .dynamic => do
              let (temp, names) := s.names.pushScope.allocate s.options.tempTagName (s.slice call)
              let inside := { s with names := names }
              let value := inside.spliced tag.span (← edits inside tag)
              let attributes ← propsText inside rest
              let children ← childrenText inside rest
              Draft.note [.tag temp]
              return ⟨adapted s.options.adapterName temp value attributes children, false⟩)
  | _ => none

/-- The attributes that the argument behind the tag becomes. -/
def propsText (s : Setting) : List Node → Draft (List Char)
  | [] => return []
  | e :: _ => props s (fun _ => do return s.spliced e.span (← edits s e)) e

/-- The attributes that an argument becomes, given its text. -/
def props (s : Setting) (whole : Unit → Draft (List Char)) : Node → Draft (List Char)
  | .mk label _ parts =>
      match label, parts with
      | .spread _, parts => do return spreadAttribute (← operandText s parts)
      | .paren, [e] => props s whole e
      | .null, _ => return []
      | .reference "undefined", _ => return []
      | .object, properties => attributes s properties
      | _, _ => do return spreadAttribute (← whole ())

/-- The attributes that the properties of an object literal become. -/
def attributes (s : Setting) : List Node → Draft (List Char)
  | [] => return []
  | .mk label span parts :: rest => do
      let first ← match label with
        | .property form computed =>
            match Attribute.name? form computed parts, quotedValue? s parts with
            | some name, some quoted => pure (assignedAttribute name quoted)
            | some name, none => pure (assignedAttribute name (braced (← valueText s parts)))
            | none, _ =>
                pure (spreadAttribute (braced (s.spliced span (← edits s (.mk label span parts)))))
        | _ => pure (spreadAttribute (← operandText s parts))
      let more ← attributes s rest
      return first ++ more

/-- The children among the arguments behind the tag. -/
def childrenText (s : Setting) : List Node → Draft (List Char)
  | [] => return []
  | _ :: children => childTexts s children

/-- The texts of the children, one after another. -/
def childTexts (s : Setting) : List Node → Draft (List Char)
  | [] => return []
  | .mk label span parts :: rest => do
      let whole := fun (_ : Unit) => do return s.spliced span (← edits s (.mk label span parts))
      let first ← match label with
        | .spread _ => pure (braced (← operandText s parts))
        | .string value =>
            let raw := s.slice span
            pure <| if Attribute.isPlainText value raw then value.toList else braced raw
        | .element | .fragment => whole ()
        | .call =>
            match element? s span parts with
            | some element => do
                let element ← element
                pure <| if element.isMarkup then element.text else braced element.text
            | none => pure (braced (← whole ()))
        | _ => pure (braced (← (position? s whole (.mk label span parts)).getD (whole ())))
      let more ← childTexts s rest
      return first ++ more

/-- The edits of a call that registers an effect: a function literal in front of the arguments is
replaced whole. -/
def effectEdits (s : Setting) : List Node → Draft (List Edit)
  | [] => return []
  | [callee] => edits s callee
  | callee :: .mk label span parts :: rest => do
      let first ← edits s callee
      let second ←
        if isCallback label then do
          let visible := s.slice span
          let (copies, names) :=
            s.snapshots visible (s.copiedVariables (.mk label span parts)) s.names.pushScope
          Draft.note (copies.map fun c => .copy c.copy c.source)
          let inside := s.copying copies names
          let made ← bodyEdits inside (s.declarations copies) (label == .arrow true) parts
          pure [⟨span, s.spliced span made⟩]
        else edits s (.mk label span parts)
      let more ← editsAll s rest
      return first ++ second ++ more

/-- The edits of a callback's body, which is the last of its parts, with `declarations` put at the
top of it. An expression becomes a block that returns it. -/
def bodyEdits (s : Setting) (declarations : List Char) (concise : Bool) :
    List Node → Draft (List Edit)
  | [] => return []
  | [.mk (.body directives) span parts] => do
      let made ← editsAll s parts
      if declarations.isEmpty then return made
      else if concise then
        return made ++
          [⟨Span.point span.start, "\x7b ".toList ++ declarations ++ " return ".toList⟩,
           ⟨Span.point span.stop, "; \x7d".toList⟩]
      else
        let (offset, ahead) := s.bodyTop directives span
        return made ++ [⟨Span.point offset, ahead ++ declarations⟩]
  | _ :: rest => bodyEdits s declarations concise rest

end

end FineGrain.Rewrite
