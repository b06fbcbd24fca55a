import FlatDecls.Declaration.Basic

/-!
# Building declaration trees

Trees grow by adding one part at a time at the end, beginning with an aggregate that has a
name or none, or with the empty source unit.
-/

namespace FlatDecls

namespace Aggregate

/-- A structure with a name and nothing else. -/
def ofName (name : String) : Aggregate := { name := some name }

/-- An empty structure without a name. -/
def anonymous : Aggregate := {}

/-- An empty union without a name. -/
def anonymousUnion : Aggregate := { kind := .union }

/-- One more field at the end. -/
def addField (a : Aggregate) (f : Field) : Aggregate :=
  { a with fields := a.fields ++ [f] }

/-- One more declaration at the end of the body. -/
def addDeclaration (a : Aggregate) (d : Declaration) : Aggregate :=
  { a with declarations := a.declarations ++ [d] }

/-- Another documentation. -/
def document (a : Aggregate) (text : String) : Aggregate :=
  { a with documentation := some text }

end Aggregate

namespace SourceUnit

/-- One more declaration at the end. -/
def addDeclaration (u : SourceUnit) (d : Declaration) : SourceUnit :=
  { u with declarations := u.declarations ++ [d] }

/-- One more alias at the end. -/
def addAlias (u : SourceUnit) (a : Alias) : SourceUnit :=
  { u with aliases := u.aliases ++ [a] }

end SourceUnit

end FlatDecls
