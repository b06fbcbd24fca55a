/-!
# Declaration trees

What a header file declares, as data: aggregates (structures and unions) with their fields,
enumerations, and type aliases. An aggregate carries the declarations written inside its
body; a field refers to one of those by position (`TypeRef.nested`) and to anything declared
elsewhere by name (`TypeRef.named`).

Numbers have the widths of the declared domain: a bit width is 32 bits, an enumerator's value
is a signed and a length or position an unsigned 64-bit word. Aggregates and declarations
are defined together, so every function on trees is a structural recursion over the pair.
-/

namespace FlatDecls

/-! ### Type references -/

/-- The built-in types. -/
inductive Primitive
  | void | bool | char
  | int8 | uint8 | int16 | uint16
  | int | uint | long | ulong | int64 | uint64
  | float | double
  deriving DecidableEq, Repr

namespace Primitive

/-- Every built-in type, in the order in which messages list them. -/
def all : List Primitive :=
  [void, bool, char, int8, uint8, int16, uint16, int, uint, long, ulong, int64, uint64,
    float, double]

/-- The spelling of a built-in type. -/
def name : Primitive → String
  | void => "void"
  | bool => "bool"
  | char => "char"
  | int8 => "int8"
  | uint8 => "uint8"
  | int16 => "int16"
  | uint16 => "uint16"
  | int => "int"
  | uint => "uint"
  | long => "long"
  | ulong => "ulong"
  | int64 => "int64"
  | uint64 => "uint64"
  | float => "float"
  | double => "double"

/-- The list of built-in types is complete. -/
@[simp]
theorem mem_all (p : Primitive) : p ∈ all := by
  cases p <;> decide

/-- Two built-in types never share a spelling. -/
theorem name_injective {p q : Primitive} (h : p.name = q.name) : p = q := by
  have listed : ∀ p ∈ all, ∀ q ∈ all, p.name = q.name → p = q := by decide
  exact listed p (mem_all p) q (mem_all q) h

end Primitive

/-- The length of an array type: known, left open, or fixed only when the program runs. -/
inductive ArraySize
  | constant (length : UInt64)
  | incomplete
  | variableLength
  deriving DecidableEq, Repr

namespace ArraySize

/-- What stands between the brackets of an array type. -/
def text : ArraySize → String
  | constant n => toString n.toNat
  | incomplete => ""
  | variableLength => "*"

/-- How a message speaks of a size. -/
def description : ArraySize → String
  | constant n => toString n.toNat
  | incomplete => "incomplete"
  | variableLength => "variable"

end ArraySize

/-- The type of a field or the target of an alias. -/
inductive TypeRef
  | primitive (p : Primitive)
  | pointer (target : TypeRef)
  | array (element : TypeRef) (size : ArraySize)
  /-- The declaration at this position in the body of the enclosing aggregate. -/
  | nested (index : UInt64)
  /-- A type declared elsewhere. -/
  | named (name : String)
  deriving DecidableEq, Repr

/-! ### Declarations -/

/-- Whether the fields of an aggregate follow or overlay one another. -/
inductive AggregateKind
  | struct
  | union
  deriving DecidableEq, Repr

/-- A field of an aggregate; a bit width makes it a bit-field. -/
structure Field where
  name : String
  type : TypeRef
  bitWidth : Option UInt32 := none
  documentation : Option String := none
  deriving DecidableEq, Repr

/-- A named constant of an enumeration. -/
structure Enumerator where
  name : String
  value : Int64
  documentation : Option String := none
  deriving DecidableEq, Repr

/-- An enumeration with its constants in order. -/
structure Enumeration where
  name : Option String := none
  members : List Enumerator := []
  documentation : Option String := none
  deriving DecidableEq, Repr

mutual

/-- A structure or union. Its `declarations` are those written inside its body. -/
structure Aggregate where
  name : Option String := none
  kind : AggregateKind := .struct
  fields : List Field := []
  declarations : List Declaration := []
  documentation : Option String := none

/-- A declared type. -/
inductive Declaration
  | aggregate (a : Aggregate)
  | enumeration (e : Enumeration)

end

/-- What an alias stands for: an aggregate written in place, or a type. -/
inductive AliasTarget
  | aggregate (a : Aggregate)
  | type (t : TypeRef)

/-- A second name for a type. -/
structure Alias where
  name : String
  target : AliasTarget

/-- All declarations and aliases of one source text, in order. -/
structure SourceUnit where
  declarations : List Declaration := []
  aliases : List Alias := []

/-! ### Views -/

namespace Aggregate

/-- An aggregate with a field or an inner declaration has a body; one with neither only
announces its name. -/
def hasBody (a : Aggregate) : Bool :=
  !a.fields.isEmpty || !a.declarations.isEmpty

/-- The declared name, or a placeholder for an aggregate without one. -/
def displayName (a : Aggregate) : String :=
  a.name.getD "<anonymous>"

/-- The declaration that a field of type `nested index` refers to. -/
def nested? (a : Aggregate) (index : UInt64) : Option Declaration :=
  a.declarations[index.toNat]?

end Aggregate

namespace Declaration

/-- The declared name, if there is one. -/
def name? : Declaration → Option String
  | aggregate a => a.name
  | enumeration e => e.name

/-- The aggregate that is declared, unless this declares an enumeration. -/
def aggregate? : Declaration → Option Aggregate
  | aggregate a => some a
  | enumeration _ => none

end Declaration

end FlatDecls
