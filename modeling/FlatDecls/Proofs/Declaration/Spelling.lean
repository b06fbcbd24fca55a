import FlatDecls.Declaration.Encode
import FlatDecls.Proofs.Declaration.Form

/-!
# Spellings of a source unit

How each part of a declaration tree may be written. A record is an object or an array, a case that
carries nothing a string or an object, and what has its default may be left out; nothing else of the
canonical form is free. Strings may be escaped and blanks may stand between tokens as the grammar of
JSON has it, so a spelling of a source unit is a text of a tree of its form.
-/

namespace FlatDecls

open Json FieldForm

/-! ### Types -/

/-- A built-in type is spelled so. -/
def Primitive.SpelledBy (p : Primitive) : Form := .tag p.name

/-- The length of an array type is spelled so. -/
def ArraySize.SpelledBy : ArraySize → Form
  | constant n => .tagged "constant" (.integer n.toNat)
  | incomplete => .tag "incomplete"
  | variableLength => .tag "variable"

/-- A type is spelled so. -/
def TypeRef.SpelledBy : TypeRef → Form
  | primitive p => .tagged "primitive" p.SpelledBy
  | pointer t => .tagged "pointer" t.SpelledBy
  | array t size =>
    .tagged "array" (.record [mandatory "element" t.SpelledBy, mandatory "size" size.SpelledBy])
  | nested i => .tagged "nested" (.integer i.toNat)
  | named s => .tagged "named" (.text s)

/-! ### Declarations -/

/-- A field is spelled so. -/
def Field.SpelledBy (f : Field) : Form :=
  .record
    [mandatory "name" (.text f.name),
     mandatory "ty" f.type.SpelledBy,
     defaulted "bit_width" (.optional (fun w ↦ .integer w.toNat) f.bitWidth) (f.bitWidth = none),
     defaulted "documentation" (.optional .text f.documentation) (f.documentation = none)]

/-- An enumeration's constant is spelled so. -/
def Enumerator.SpelledBy (e : Enumerator) : Form :=
  .record
    [mandatory "name" (.text e.name),
     mandatory "value" (.integer e.value.toInt),
     defaulted "documentation" (.optional .text e.documentation) (e.documentation = none)]

/-- An enumeration is spelled so. -/
def Enumeration.SpelledBy (e : Enumeration) : Form :=
  .record
    [defaulted "name" (.optional .text e.name) (e.name = none),
     defaulted "members" (.list (e.members.map Enumerator.SpelledBy)) (e.members = []),
     defaulted "documentation" (.optional .text e.documentation) (e.documentation = none)]

/-- The kind of an aggregate is spelled so. -/
def AggregateKind.SpelledBy (k : AggregateKind) : Form := .tag k.name

mutual

/-- An aggregate is spelled so. -/
def Aggregate.SpelledBy : Aggregate → Form
  | ⟨name, kind, fields, declarations, documentation⟩ =>
    .record
      [defaulted "name" (.optional .text name) (name = none),
       defaulted "kind" kind.SpelledBy (kind = .struct),
       defaulted "fields" (.list (fields.map Field.SpelledBy)) (fields = []),
       defaulted "declarations" (.list (Declaration.spellings declarations)) (declarations = []),
       defaulted "documentation" (.optional .text documentation) (documentation = none)]

/-- A declaration is spelled so. -/
def Declaration.SpelledBy : Declaration → Form
  | .aggregate a => .tagged "aggregate" a.SpelledBy
  | .enumeration e => .tagged "enumeration" e.SpelledBy

/-- How each declaration of a list is spelled. -/
def Declaration.spellings : List Declaration → List Form
  | [] => []
  | d :: ds => d.SpelledBy :: Declaration.spellings ds

end

@[simp]
theorem Declaration.spellings_eq_map (ds : List Declaration) :
    Declaration.spellings ds = ds.map Declaration.SpelledBy := by
  induction ds with
  | nil => rfl
  | cons d ds ih => rw [Declaration.spellings, ih, List.map_cons]

/-! ### Source units -/

/-- The target of an alias is spelled so. -/
def AliasTarget.SpelledBy : AliasTarget → Form
  | aggregate a => .tagged "aggregate" a.SpelledBy
  | type t => .tagged "type" t.SpelledBy

/-- An alias is spelled so. -/
def Alias.SpelledBy (a : Alias) : Form :=
  .record [mandatory "name" (.text a.name), mandatory "target" a.target.SpelledBy]

/-- A source unit is spelled so. -/
def SourceUnit.SpelledBy (u : SourceUnit) : Form :=
  .record
    [defaulted "declarations" (.list (u.declarations.map Declaration.SpelledBy))
       (u.declarations = []),
     defaulted "aliases" (.list (u.aliases.map Alias.SpelledBy)) (u.aliases = [])]

/-- The text is a spelling of the source unit. -/
def SourceUnit.Spelling (u : SourceUnit) (text : String) : Prop :=
  ∃ n, n.Written text ∧ u.SpelledBy n

/-- The text is JSON in which no more containers than these are open at once, ignored values not
counted; or it is no JSON. -/
def NestedAtMost (b : Nat) (text : String) : Prop :=
  ∀ n, n.Written text → OpensAtMost b .sourceUnit n

end FlatDecls
