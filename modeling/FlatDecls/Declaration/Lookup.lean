import FlatDecls.Declaration.Basic

/-!
# Looking up declarations by name

A name can be declared several times: announced without a body, defined once or more, and
shared with an enumeration. The first declaration with a body is taken as the definition, and
without any the first announcement.
-/

namespace FlatDecls

namespace SourceUnit

/-- The top-level aggregates of this name, in order. -/
def aggregatesNamed (u : SourceUnit) (name : String) : List Aggregate :=
  (u.declarations.filterMap Declaration.aggregate?).filter (·.name == some name)

/-- The definition of an aggregate: the first declaration of that name with a body, else the
first one. -/
def findAggregate? (u : SourceUnit) (name : String) : Option Aggregate :=
  let found := u.aggregatesNamed name
  (found.find? (·.hasBody)).or found.head?

/-- Is any top-level declaration of this name there, of either kind? -/
def declares (u : SourceUnit) (name : String) : Bool :=
  u.declarations.any (·.name? == some name)

/-- The aggregate that an alias is bound to: the one written in place, or the definition of
the name that it stands for. -/
def aliasedAggregate? (u : SourceUnit) (a : Alias) : Option Aggregate :=
  match a.target with
  | .aggregate a => some a
  | .type (.named n) => u.findAggregate? n
  | .type _ => none

end SourceUnit

end FlatDecls
