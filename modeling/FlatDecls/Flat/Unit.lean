/-!
# Flat units

What flattening produces. A unit stands on its own: nested declarations have received names
and become units themselves, arrays of constant length have become one field per element, and
the type of every field is a name.
-/

namespace FlatDecls

/-- A field of a flat structure; its type is given by name. -/
structure FlatField where
  name : String
  typeName : String
  documentation : Option String := none
  deriving DecidableEq, Repr

/-- A structure without nested declarations. -/
structure FlatStructure where
  name : String
  fields : List FlatField := []
  documentation : Option String := none
  deriving DecidableEq, Repr

/-- A constant of a flat enumeration. -/
structure FlatMember where
  name : String
  value : Int64
  documentation : Option String := none
  deriving DecidableEq, Repr

/-- An enumeration that has a name. -/
structure FlatEnumeration where
  name : String
  members : List FlatMember := []
  documentation : Option String := none
  deriving DecidableEq, Repr

/-- A structure or an enumeration. -/
inductive FlatUnit
  | struct (s : FlatStructure)
  | enum (e : FlatEnumeration)
  deriving DecidableEq, Repr

/-- The first field of this name. -/
def FlatStructure.field? (s : FlatStructure) (name : String) : Option FlatField :=
  s.fields.find? (·.name == name)

namespace FlatUnit

/-- The name of a unit. -/
def name : FlatUnit → String
  | struct s => s.name
  | enum e => e.name

/-- The structure, unless the unit is an enumeration. -/
def structure? : FlatUnit → Option FlatStructure
  | struct s => some s
  | enum _ => none

/-- The enumeration, unless the unit is a structure. -/
def enumeration? : FlatUnit → Option FlatEnumeration
  | struct _ => none
  | enum e => some e

/-- The fields of a unit; an enumeration has none. -/
def fields : FlatUnit → List FlatField
  | struct s => s.fields
  | enum _ => []

end FlatUnit

end FlatDecls
