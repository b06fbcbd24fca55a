import FlatDecls.Declaration.Basic
import FlatDecls.Json.Value

/-!
# Writing declaration trees

The canonical JSON form: records are objects with their keys in order, every list and the
kind of an aggregate are written even when empty or usual, optional values only when present,
and a case without payload is its name.
-/

namespace FlatDecls

open Json

/-- A list member. -/
def Json.Value.list (key : String) (vs : List Value) : String × Value := (key, .array vs)

/-- An array's length. -/
def ArraySize.toJson : ArraySize → Value
  | constant n => .object [("constant", .integer n.toNat)]
  | incomplete => .string "incomplete"
  | variableLength => .string "variable"

/-- A type reference. -/
def TypeRef.toJson : TypeRef → Value
  | primitive p => .object [("primitive", .string p.name)]
  | pointer t => .object [("pointer", t.toJson)]
  | array t size =>
    .object [("array", .object [("element", t.toJson), ("size", size.toJson)])]
  | nested i => .object [("nested", .integer i.toNat)]
  | named n => .object [("named", .string n)]

/-- A field. -/
def Field.toJson (f : Field) : Value :=
  .object <|
    [("name", .string f.name), ("ty", f.type.toJson)]
      ++ Value.optionalMember "bit_width" (f.bitWidth.map fun w ↦ .integer w.toNat)
      ++ Value.optionalText "documentation" f.documentation

/-- An enumeration's constant. -/
def Enumerator.toJson (e : Enumerator) : Value :=
  .object <|
    [("name", .string e.name), ("value", .integer e.value.toInt)]
      ++ Value.optionalText "documentation" e.documentation

/-- An enumeration. -/
def Enumeration.toJson (e : Enumeration) : Value :=
  .object <|
    Value.optionalText "name" e.name
      ++ [Value.list "members" (e.members.map Enumerator.toJson)]
      ++ Value.optionalText "documentation" e.documentation

/-- The name of an aggregate's kind. -/
def AggregateKind.name : AggregateKind → String
  | struct => "struct"
  | union => "union"

mutual

/-- An aggregate. -/
def Aggregate.toJson : Aggregate → Value
  | ⟨name, kind, fields, declarations, documentation⟩ =>
    .object <|
      Value.optionalText "name" name
        ++ [("kind", .string kind.name),
            Value.list "fields" (fields.map Field.toJson),
            Value.list "declarations" (Declaration.listToJson declarations)]
        ++ Value.optionalText "documentation" documentation

/-- A declaration. -/
def Declaration.toJson : Declaration → Value
  | .aggregate a => .object [("aggregate", a.toJson)]
  | .enumeration e => .object [("enumeration", e.toJson)]

/-- Each declaration of a list. -/
def Declaration.listToJson : List Declaration → List Value
  | [] => []
  | d :: ds => d.toJson :: Declaration.listToJson ds

end

/-- Declarations are written one by one. -/
@[simp]
theorem Declaration.listToJson_eq_map (ds : List Declaration) :
    Declaration.listToJson ds = ds.map Declaration.toJson := by
  induction ds with
  | nil => rfl
  | cons d ds ih => simp [Declaration.listToJson, ih]

/-- The target of an alias. -/
def AliasTarget.toJson : AliasTarget → Value
  | aggregate a => .object [("aggregate", a.toJson)]
  | type t => .object [("type", t.toJson)]

/-- An alias. -/
def Alias.toJson (a : Alias) : Value :=
  .object [("name", .string a.name), ("target", a.target.toJson)]

/-- A source unit. -/
def SourceUnit.toJson (u : SourceUnit) : Value :=
  .object
    [Value.list "declarations" (u.declarations.map Declaration.toJson),
     Value.list "aliases" (u.aliases.map Alias.toJson)]

end FlatDecls
