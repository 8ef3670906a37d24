import FineGrain.Grammar.Node
import FineGrain.Text.Space
/-!
Which strings markup reads the way a program does: names of attributes, quoted attribute values and
plain text between tags.
-/

namespace FineGrain.Attribute

open Grammar

/-- Whether `name` can be written as the name of an attribute. -/
def isName (name : String) : Bool :=
  match name.toList with
  | [] => false
  | c :: rest =>
      (c.isAlpha || c == '_' || c == '$') &&
        rest.all fun c => c.isAlphanum || c == '_' || c == '$' || c == '-' || c == ':'

/-- The name that a property key spells, if it is an identifier or a string. -/
def staticKey? : Label → Option String
  | .key name => some name
  | .string value => some value
  | _ => none

/-- The attribute that a property with a plain value becomes. -/
def name? (form : PropertyForm) (computed : Bool) (parts : List Node) : Option String :=
  match form, computed, parts with
  | .value, false, key :: _ | .shorthand, false, key :: _ =>
      ((staticKey? key.label).filter isName).map fun name =>
        if name == "className" then "class" else name
  | _, _, _ => none

/-- Whether a string literal, as written, is read the same as the value of an attribute: it has no
escape, no line end and nothing that looks like a character reference. -/
def isPlainQuoted (raw : List Char) : Bool :=
  raw.all fun c => c != '\\' && c != '\n' && c != '\r' && c != '&'

/-- Whether the value of a string literal is read the same as text between tags. Text that is all
white space may be dropped, so it does not count. -/
def isPlainText (value : String) (raw : List Char) : Bool :=
  value.toList.any (fun c => !Text.isSpace c) && !raw.contains '\\' &&
    value.toList.all fun c => !(['{', '}', '<', '>', '&', '\n', '\r'].contains c)

end FineGrain.Attribute
