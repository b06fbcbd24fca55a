import FlatDecls.Toml.Scalar

/-!
# Valid values

A document is first read as it is written, also where the form of a number stands for none.
This module says which of its values stand for something: all but these, and containers whose
parts stand for something.

One key is reserved. A table in which it is the first key, in alphabetical order, is the long
form of a date or time: the string behind the key must spell one, and nothing else in such a
table is looked at. Behind another key the reserved one is a key like any other.
-/

namespace FlatDecls.Toml

/-- The key that marks the long form of a date or time. -/
def dateTimeKey : String := "$__toml_private_datetime"

/-- What stands behind the reserved key, if no other key comes before it. -/
def reserved? (entries : List (String × Value)) : Option Value :=
  if entries.all fun e ↦ dateTimeKey ≤ e.1 then entries.lookup dateTimeKey else none

/-- Is this a string that spells a date or time? -/
def Value.spellsDateTime : Value → Bool
  | .string s => isDateTime s.toList
  | _ => false

mutual

/-- Does a value stand for something? -/
def Value.isValid : Value → Bool
  | .string _ => true
  | .integer _ => true
  | .float _ => true
  | .boolean _ => true
  | .dateTime => true
  | .noNumber => false
  | .array items => allValid items
  | .table entries =>
    match reserved? entries with
    | some v => v.spellsDateTime
    | none => entriesValid entries

/-- Do all these values stand for something? -/
def allValid : List Value → Bool
  | [] => true
  | v :: vs => v.isValid && allValid vs

/-- Do the values behind all these keys stand for something? -/
def entriesValid : List (String × Value) → Bool
  | [] => true
  | (_, v) :: es => v.isValid && entriesValid es

end

end FlatDecls.Toml
