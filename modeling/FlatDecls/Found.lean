import FlatDecls.Text.Quoted

/-!
# What a reader found

Readers of structured text report a value of the wrong kind by naming what they found and
what they expected. `Found` is the first half of such a report, shared by all formats.
-/

namespace FlatDecls

/-- The kind of a value that was found, with its content where a report shows it. -/
inductive Found
  | null
  | boolean (b : Bool)
  | integer (n : Int)
  /-- A number with a fraction or exponent, as its format writes it. -/
  | floating (text : String)
  | string (s : String)
  | sequence
  | map
  /-- The name of a case that carries nothing. -/
  | bareCase
  deriving DecidableEq, Repr

namespace Found

/-- The value as a report shows it. -/
def text : Found → String
  | null => "null"
  | boolean b => s!"boolean `{b}`"
  | integer n => s!"integer `{n}`"
  | floating t => s!"floating point `{t}`"
  | string s => "string " ++ Text.quoted s
  | sequence => "sequence"
  | map => "map"
  | bareCase => "unit variant"

/-- A report of a value of the wrong kind. -/
def mismatch (found : Found) (expected : String) : String :=
  s!"invalid type: {found.text}, expected {expected}"

end Found

/-- The choice of names that a report offers: each in backquotes, two joined by "or", more in
a list. -/
def expectedNames (names : List String) : String :=
  match names.map fun n ↦ s!"`{n}`" with
  | [a, b] => s!"expected {a} or {b}"
  | [a] => s!"expected {a}"
  | quoted => "expected one of " ++ ", ".intercalate quoted

end FlatDecls
