/-!
Tables of a TOML document while it is put together. A table remembers how it came to be, since that
decides how it may be extended.
-/

namespace FineGrain.Toml

/-- How a table came to be: by its own header, as a step of another header, or as a step of a dotted
key. -/
inductive Origin where
  | header | implied | dotted
deriving DecidableEq, Repr

/-- What a key stands for.

* `string`, `boolean`, `array`: a value; `scalar`: a number, a date or a time
* `inline`: a table written as a value, which is closed
* `table`: a table that headers and dotted keys make
* `tables`: the tables of a repeated header, the current one first -/
inductive Item where
  | string (value : String)
  | boolean (value : Bool)
  | scalar
  | array (items : List Item)
  | inline (entries : List (String × Item))
  | table (origin : Origin) (entries : List (String × Item))
  | tables (all : List (List (String × Item)))
deriving Repr, Inhabited

abbrev Entries := List (String × Item)

namespace Entries

def get? (entries : Entries) (key : String) : Option Item := List.lookup key entries

def put : Entries → String → Item → Entries
  | [], key, item => [(key, item)]
  | (k, old) :: rest, key, item =>
      if k == key then (k, item) :: rest else (k, old) :: put rest key item

/-- Change the table that the header of a table walks to; what is missing on the way is implied. -/
def atHeader (change : Entries → Option Entries) : List String → Entries → Option Entries
  | [], entries => change entries
  | key :: keys, entries =>
      match entries.get? key with
      | none => (atHeader change keys []).map fun t => entries.put key (.table .implied t)
      | some (.table origin t) =>
          (atHeader change keys t).map fun t => entries.put key (.table origin t)
      | some (.tables (t :: rest)) =>
          (atHeader change keys t).map fun t => entries.put key (.tables (t :: rest))
      | some _ => none

/-- Define the table of a header. Only a table that was merely implied may be there already. -/
def openTable (key : String) (entries : Entries) : Option Entries :=
  match entries.get? key with
  | none => some (entries.put key (.table .header []))
  | some (.table .implied t) => some (entries.put key (.table .header t))
  | some _ => none

def addTable (key : String) (entries : Entries) : Option Entries :=
  match entries.get? key with
  | none => some (entries.put key (.tables [[]]))
  | some (.tables all) => some (entries.put key (.tables ([] :: all)))
  | some _ => none

/-- Assign to a dotted key. Every step but the last is a table that dotted keys made, and nothing is
assigned twice. -/
def assign (item : Item) : List String → Entries → Option Entries
  | [], _ => none
  | [key], entries => if (entries.get? key).isSome then none else some (entries.put key item)
  | key :: keys, entries =>
      match entries.get? key with
      | none => (assign item keys []).map fun t => entries.put key (.table .dotted t)
      | some (.table origin t) =>
          if origin == .header || (keys.length == 1 && origin != .dotted) then none
          else (assign item keys t).map fun t => entries.put key (.table origin t)
      | some _ => none

end Entries

end FineGrain.Toml
