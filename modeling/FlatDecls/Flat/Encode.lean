import FlatDecls.Flat.Register
import FlatDecls.Json.Value

/-!
# Units as JSON

A register is an array of objects in order. The object of a unit begins with its kind; then
follow name, fields or members, and the documentation if there is one.
-/

namespace FlatDecls

open Json

/-- A field. -/
def FlatField.toJson (f : FlatField) : Value :=
  .object <|
    [("name", .string f.name), ("type_name", .string f.typeName)]
      ++ Value.optionalText "documentation" f.documentation

/-- The members of a structure's object. -/
def FlatStructure.jsonMembers (s : FlatStructure) : List (String × Value) :=
  [("name", .string s.name), ("fields", .array (s.fields.map FlatField.toJson))]
    ++ Value.optionalText "documentation" s.documentation

/-- A constant. -/
def FlatMember.toJson (m : FlatMember) : Value :=
  .object <|
    [("name", .string m.name), ("value", .integer m.value.toInt)]
      ++ Value.optionalText "documentation" m.documentation

/-- The members of an enumeration's object. -/
def FlatEnumeration.jsonMembers (e : FlatEnumeration) : List (String × Value) :=
  [("name", .string e.name), ("members", .array (e.members.map FlatMember.toJson))]
    ++ Value.optionalText "documentation" e.documentation

/-- A unit, with its kind in front. -/
def FlatUnit.toJson : FlatUnit → Value
  | struct s => .object (("kind", .string "structure") :: s.jsonMembers)
  | enum e => .object (("kind", .string "enumeration") :: e.jsonMembers)

/-- All units in order. -/
def Register.toJson (r : Register) : Value := .array (r.units.map FlatUnit.toJson)

end FlatDecls
