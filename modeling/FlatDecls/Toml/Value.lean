import FlatDecls.Decimal.Layout

/-!
# TOML values

The values of a TOML document. An integer fits into 64 bits with a sign, and no float is beyond
the largest double; what has the form of a number but stands for none is a value of its own
kind, since it is a fault only where a document is looked at. A date or time carries nothing:
no reader in this library looks inside one.
-/

namespace FlatDecls.Toml

open Decimal

/-- The value of a number with a fraction or exponent, or of one of the special words. -/
inductive FloatValue
  | finite (negative : Bool) (magnitude : Binary64)
  | infinite (negative : Bool)
  | notANumber
  deriving DecidableEq, Repr

/-- A value of a document. -/
inductive Value
  | string (s : String)
  | integer (n : Int)
  | float (f : FloatValue)
  | boolean (b : Bool)
  | dateTime
  | array (items : List Value)
  /-- Keys with their values in order of their first appearance. -/
  | table (entries : List (String × Value))
  /-- In the form of a number, but too large for one or with something else among its digits. -/
  | noNumber

namespace Value

/-- The name of a value's type. -/
def typeName : Value → String
  | string _ => "string"
  | integer _ => "integer"
  | float _ => "float"
  | boolean _ => "boolean"
  | dateTime => "datetime"
  | array _ => "array"
  | table _ => "table"
  | noNumber => "number"

end Value

end FlatDecls.Toml
