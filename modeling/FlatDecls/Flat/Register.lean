import FlatDecls.Flat.Unit

/-!
# The register of units

Units in the order in which they were completed. A register only grows at its end, so the
position of a unit never changes. A structure that holds another unit by value needs it
registered before; a field that breaks this is a *forward reference*. A name that several
units bear is judged by the first of them, so a forward reference stays one whatever is
registered later.
-/

namespace FlatDecls

/-- Units in order of registration. -/
structure Register where
  units : List FlatUnit := []
  deriving DecidableEq, Repr

namespace Register

/-- One more unit at the end. -/
def push (r : Register) (u : FlatUnit) : Register := ⟨r.units ++ [u]⟩

/-- The number of units, which is the position of the next one. -/
def size (r : Register) : Nat := r.units.length

/-- The names of all units, in order. -/
def names (r : Register) : List String := r.units.map FlatUnit.name

/-- The structures among the units, in order. -/
def structures (r : Register) : List FlatStructure := r.units.filterMap FlatUnit.structure?

/-- The enumerations among the units, in order. -/
def enumerations (r : Register) : List FlatEnumeration :=
  r.units.filterMap FlatUnit.enumeration?

/-- The first position at which a name is registered. -/
def firstPosition? (r : Register) (name : String) : Option Nat :=
  r.units.findIdx? (·.name == name)

@[simp]
theorem units_push (r : Register) (u : FlatUnit) : (r.push u).units = r.units ++ [u] := rfl

end Register

/-! ### Forward references -/

/-- A field whose type names a unit that is not registered before the field's structure. -/
structure ForwardReference where
  structureName : String
  field : String
  target : String
  /-- The position of the structure. -/
  position : Nat
  /-- The first position of a unit with the target's name. -/
  targetPosition : Nat
  deriving DecidableEq, Repr

/-- The sentence that reports a forward reference. -/
def ForwardReference.message (r : ForwardReference) : String :=
  s!"Field '{r.structureName}.{r.field}' refers to '{r.target}' (unit #{r.targetPosition}), "
    ++ s!"which is not registered before unit #{r.position}"

namespace Register

/-- The forward reference of a field of the unit `u` at `position`, if it is one. -/
def forwardReference? (r : Register) (u : FlatUnit) (position : Nat) (f : FlatField) :
    Option ForwardReference :=
  match r.firstPosition? f.typeName with
  | some target =>
    if position ≤ target then some ⟨u.name, f.name, f.typeName, position, target⟩ else none
  | none => none

/-- All forward references, in order of their structures and fields. -/
def forwardReferences (r : Register) : List ForwardReference :=
  r.units.zipIdx.flatMap fun (u, position) ↦
    u.fields.filterMap (r.forwardReference? u position)

/-- A register is valid if it has no forward reference; otherwise the first is reported. -/
def validate (r : Register) : Except ForwardReference Unit :=
  match r.forwardReferences with
  | [] => .ok ()
  | first :: _ => .error first

end Register

end FlatDecls
