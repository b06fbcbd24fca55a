import FlatDecls.Declaration.Basic
import FlatDecls.Json.Decoder

/-!
# Reading declaration trees

The JSON form of each type of a declaration tree: which keys a record has, in which order
they stand in its array form, and which cases a variant has. The argument `b` counts the
containers that may still be opened; it falls by one with every container, so the mutual
recursion through aggregates and types is structural in it.
-/

namespace FlatDecls

open Json

/-! ### Types without recursion -/

/-- A built-in type, by its spelling. -/
def Primitive.decode (b : Nat) : Node → Decoded Primitive :=
  variant (0 < b) (Primitive.all.map fun p ↦ ⟨p.name, .nothing p⟩)

/-- An array's length. -/
def ArraySize.decode (b : Nat) : Node → Decoded ArraySize :=
  variant (0 < b)
    [⟨"constant", .value fun n ↦ .constant <$> word64 n⟩,
     ⟨"incomplete", .nothing .incomplete⟩,
     ⟨"variable", .nothing .variableLength⟩]

/-- Whether an aggregate is a structure or a union. -/
def AggregateKind.decode (b : Nat) : Node → Decoded AggregateKind :=
  variant (0 < b) [⟨"struct", .nothing .struct⟩, ⟨"union", .nothing .union⟩]

/-- An enumeration's constant. -/
def Enumerator.decode (b : Nat) : Node → Decoded Enumerator :=
  record (0 < b) "struct EnumeratorDecl"
    [.mandatory "name" text fun s e ↦ { e with name := s },
     .mandatory "value" signed64 fun v e ↦ { e with value := v },
     .defaulted "documentation" (optional text) fun d e ↦ { e with documentation := d }]
    { name := "", value := 0 }

/-- An enumeration. -/
def Enumeration.decode (b : Nat) : Node → Decoded Enumeration :=
  record (0 < b) "struct EnumerationDecl"
    [.defaulted "name" (optional text) fun s e ↦ { e with name := s },
     .defaulted "members" (sequence (1 < b) (Enumerator.decode (b - 2)))
       fun ms e ↦ { e with members := ms },
     .defaulted "documentation" (optional text) fun d e ↦ { e with documentation := d }]
    {}

/-! ### Types -/

/-- The cases of a type reference, where `inner` reads a type and `array` the element and size
of an array. -/
def TypeRef.cases (b : Nat) (inner array : Node → Decoded TypeRef) : List (Case TypeRef) :=
  [⟨"primitive", .value fun n ↦ .primitive <$> Primitive.decode b n⟩,
   ⟨"pointer", .value fun n ↦ .pointer <$> inner n⟩,
   ⟨"array", .fields array⟩,
   ⟨"nested", .value fun n ↦ .nested <$> word64 n⟩,
   ⟨"named", .value fun n ↦ .named <$> text n⟩]

/-- The element and size of an array type. -/
def TypeRef.arrayParts (canOpen : Bool) (element : Node → Decoded TypeRef)
    (size : Node → Decoded ArraySize) (n : Node) : Decoded TypeRef := do
  let (t, s) ← record canOpen "struct variant TypeRef::Array"
    [.mandatory "element" element fun t p ↦ (t, p.2),
     .mandatory "size" size fun s p ↦ (p.1, s)]
    (.primitive .void, .incomplete) n
  return .array t s

mutual

/-- A type reference. -/
def TypeRef.decode : (b : Nat) → Node → Decoded TypeRef
  | 0 => variant false (TypeRef.cases 0 tooDeep tooDeep)
  | b + 1 => variant true (TypeRef.cases b (TypeRef.decode b) (TypeRef.decodeArray b))

/-- The fields of an array type. -/
def TypeRef.decodeArray : (b : Nat) → Node → Decoded TypeRef
  | 0 => TypeRef.arrayParts false tooDeep tooDeep
  | b + 1 => TypeRef.arrayParts true (TypeRef.decode b) (ArraySize.decode b)

end

/-- A field. -/
def Field.decode (b : Nat) : Node → Decoded Field :=
  record (0 < b) "struct FieldDecl"
    [.mandatory "name" text fun s f ↦ { f with name := s },
     .mandatory "ty" (TypeRef.decode (b - 1)) fun t f ↦ { f with type := t },
     .defaulted "bit_width" (optional word32) fun w f ↦ { f with bitWidth := w },
     .defaulted "documentation" (optional text) fun d f ↦ { f with documentation := d }]
    { name := "", type := .primitive .void }

/-! ### Declarations -/

/-- The fields of an aggregate, where `declarations` reads those of its body. -/
def Aggregate.slots (b : Nat) (declarations : Node → Decoded (List Declaration)) :
    List (Slot Aggregate) :=
  [.defaulted "name" (optional text) fun s a ↦ { a with name := s },
   .defaulted "kind" (AggregateKind.decode b) fun k a ↦ { a with kind := k },
   .defaulted "fields" (sequence (0 < b) (Field.decode (b - 1)))
     fun fs a ↦ { a with fields := fs },
   .defaulted "declarations" declarations fun ds a ↦ { a with declarations := ds },
   .defaulted "documentation" (optional text) fun d a ↦ { a with documentation := d }]

/-- The cases of a declaration. -/
def Declaration.cases (b : Nat) (aggregate : Node → Decoded Aggregate) :
    List (Case Declaration) :=
  [⟨"aggregate", .value fun n ↦ .aggregate <$> aggregate n⟩,
   ⟨"enumeration", .value fun n ↦ .enumeration <$> Enumeration.decode b n⟩]

mutual

/-- An aggregate. -/
def Aggregate.decode : (b : Nat) → Node → Decoded Aggregate
  | 0 => record false "struct AggregateDecl" (Aggregate.slots 0 tooDeep) {}
  | b + 1 =>
    record true "struct AggregateDecl" (Aggregate.slots b (Declaration.decodeList b)) {}

/-- The declarations in the body of an aggregate. -/
def Declaration.decodeList : (b : Nat) → Node → Decoded (List Declaration)
  | 0 => sequence false tooDeep
  | b + 1 => sequence true (Declaration.decode b)

/-- A declaration. -/
def Declaration.decode : (b : Nat) → Node → Decoded Declaration
  | 0 => variant false (Declaration.cases 0 tooDeep)
  | b + 1 => variant true (Declaration.cases b (Aggregate.decode b))

end

/-! ### Compilation units -/

/-- The target of an alias. -/
def AliasTarget.decode (b : Nat) : Node → Decoded AliasTarget :=
  variant (0 < b)
    [⟨"aggregate", .value fun n ↦ .aggregate <$> Aggregate.decode (b - 1) n⟩,
     ⟨"type", .value fun n ↦ .type <$> TypeRef.decode (b - 1) n⟩]

/-- An alias. -/
def Alias.decode (b : Nat) : Node → Decoded Alias :=
  record (0 < b) "struct TypeAlias"
    [.mandatory "name" text fun s a ↦ { a with name := s },
     .mandatory "target" (AliasTarget.decode (b - 1)) fun t a ↦ { a with target := t }]
    { name := "", target := .aggregate {} }

/-- A source unit. -/
def SourceUnit.decode (b : Nat) : Node → Decoded SourceUnit :=
  record (0 < b) "struct TranslationUnit"
    [.defaulted "declarations" (Declaration.decodeList (b - 1))
       fun ds u ↦ { u with declarations := ds },
     .defaulted "aliases" (sequence (1 < b) (Alias.decode (b - 2)))
       fun xs u ↦ { u with aliases := xs }]
    {}

/-- The source unit that a text describes. -/
def SourceUnit.ofJson (text : String) : Decoded SourceUnit :=
  Json.decode (SourceUnit.decode nestingLimit) text

end FlatDecls
