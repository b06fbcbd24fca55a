import FlatDecls.Flat.Encode
import FlatDecls.Flat.Listing

/-!
# Emission

The two output formats of a register, and their names. Both texts end with a line feed,
except that the listing of an empty register is empty.
-/

namespace FlatDecls

/-- An output format. -/
inductive EmitFormat
  | listing
  | json
  deriving DecidableEq, Repr, Inhabited

namespace EmitFormat

/-- The name of a format. -/
def name : EmitFormat → String
  | listing => "listing"
  | json => "json"

/-- All formats, in the order in which messages list them. -/
def all : List EmitFormat := [listing, json]

/-- The format of this name. -/
def ofName? (s : String) : Option EmitFormat := all.find? (·.name == s)

/-- The report of a name that no format has. -/
def unknownMessage (s : String) : String :=
  s!"unknown emit format '{s}' (expected 'listing' or 'json')"

@[simp]
theorem ofName?_name (f : EmitFormat) : ofName? f.name = some f := by
  cases f <;> rfl

end EmitFormat

/-- The text of a register in a format. -/
def Register.emit (r : Register) : EmitFormat → String
  | .listing => r.listing 0
  | .json => r.toJson.pretty ++ "\n"

end FlatDecls
