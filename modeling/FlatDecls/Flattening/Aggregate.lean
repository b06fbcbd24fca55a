import FlatDecls.Declaration.Basic
import FlatDecls.Flattening.Progress

/-!
# Flattening aggregates

An aggregate is flattened under an assigned name, one field after the other:

* a bit-field becomes one field of its storage type, with a warning;
* an array of constant length becomes one field for each element, numbered from zero and
  without documentation; any other outermost array is an error;
* a field of nested type gets the type name `owner_field`, and the nested declaration is
  registered under that name right away, so before its owner;
* every other field keeps its name, documentation and type.

The nested declarations of the owner are handed to its fields as the list of their
registrations, each waiting for a name. This makes the recursion through aggregates
structural.
-/

namespace FlatDecls

/-- The registrations of the declarations in an aggregate's body, by position. -/
abbrev Registrations := List (String → Flatten Nat)

/-- An enumeration under an assigned name. -/
def Enumeration.flatten (e : Enumeration) (assigned : String) : FlatEnumeration where
  name := assigned
  members := e.members.map fun m ↦
    { name := m.name, value := m.value, documentation := m.documentation }
  documentation := e.documentation

namespace Field

/-- The name of the type of a nested field. -/
def nestedName (f : Field) (owner : String) : String := s!"{owner}_{f.name}"

/-- The written name of a type that is not nested. -/
def typeNameIn (f : Field) (owner : String) (t : TypeRef) : Flatten String :=
  match t.typeName with
  | .ok name => pure name
  | .error cause => throw (.unnamedType owner f.name cause)

/-- Registers the declaration at position `i` for this field, and gives its name. -/
def registerNested (f : Field) (nested : Registrations) (owner : String) (i : UInt64) :
    Flatten String :=
  match nested[i.toNat]? with
  | some registerAs => do
    let _ ← registerAs (f.nestedName owner)
    return f.nestedName owner
  | none => throw (.danglingNested owner f.name i nested.length)

/-- A field that becomes exactly one field. -/
def flattenSingle (f : Field) (nested : Registrations) (owner : String) :
    Flatten FlatField := do
  let typeName ←
    match f.type with
    | .nested i => f.registerNested nested owner i
    | t => f.typeNameIn owner t
  .log (.field owner f.name typeName)
  return { name := f.name, typeName, documentation := f.documentation }

/-- The fields for the elements of an array. -/
def elementFields (f : Field) (elementName : String) (length : Nat) : List FlatField :=
  (List.range length).map fun i ↦ { name := f.name ++ toString i, typeName := elementName }

/-- A field that becomes one field for each element of its array type. -/
def unroll (f : Field) (owner : String) (element : TypeRef) (length : UInt64) :
    Flatten (List FlatField) := do
  let elementName ← f.typeNameIn owner element
  .log (.unrolled owner f.name elementName length.toNat)
  return f.elementFields elementName length.toNat

/-- A bit-field: one field of its storage type, and a warning. -/
def flattenBits (f : Field) (nested : Registrations) (owner : String) (width : UInt32) :
    Flatten FlatField := do
  let flat ← f.flattenSingle nested owner
  .log (.bitField owner f.name width.toNat)
  .report (.bitFieldFlattened owner f.name width flat.typeName)
  return flat

/-- The fields that a field becomes. A bit width goes before the shape of the type. -/
def flatten (f : Field) (nested : Registrations) (owner : String) :
    Flatten (List FlatField) :=
  match f.bitWidth, f.type with
  | some width, _ => return [← f.flattenBits nested owner width]
  | none, .array element (.constant length) => f.unroll owner element length
  | none, .array _ size => throw (.unsupportedArray owner f.name size)
  | none, _ => return [← f.flattenSingle nested owner]

end Field

mutual

/-- An aggregate under an assigned name. It is not registered, but what is nested in it is. -/
def Aggregate.flatten : Aggregate → (assigned : String) → Flatten FlatStructure
  | ⟨name, _, fields, declarations, documentation⟩, assigned => do
    .log (.aggregate (name.getD "<anonymous>") assigned fields.length)
    let nested := Declaration.registrations declarations
    let flat ← fields.mapM fun f ↦ f.flatten nested assigned
    return { name := assigned, fields := flat.flatten, documentation }

/-- Flattens a declaration under an assigned name and registers the result. -/
def Declaration.register : Declaration → (assigned : String) → Flatten Nat
  | .aggregate a, assigned => do .register (.struct (← a.flatten assigned))
  | .enumeration e, assigned => do
    .log (.enumeration assigned)
    .register (.enum (e.flatten assigned))

/-- The registrations of a list of declarations. -/
def Declaration.registrations : List Declaration → Registrations
  | [] => []
  | d :: ds => d.register :: Declaration.registrations ds

end

/-- Flattens an aggregate under an assigned name and registers it. -/
def Aggregate.register (a : Aggregate) (assigned : String) : Flatten Nat := do
  .register (.struct (← a.flatten assigned))

/-- The fields that one field of an aggregate becomes. -/
def Aggregate.flattenField (a : Aggregate) (assigned : String) (f : Field) :
    Flatten (List FlatField) :=
  f.flatten (Declaration.registrations a.declarations) assigned

/-- Registrations follow the declarations one by one. -/
@[simp]
theorem Declaration.registrations_eq_map (ds : List Declaration) :
    Declaration.registrations ds = ds.map Declaration.register := by
  induction ds with
  | nil => rfl
  | cons d ds ih => simp [Declaration.registrations, ih]

/-- A declared aggregate is registered like any other. -/
@[simp]
theorem Declaration.register_aggregate (a : Aggregate) (assigned : String) :
    (Declaration.aggregate a).register assigned = a.register assigned := by
  rw [Declaration.register, Aggregate.register]

end FlatDecls
