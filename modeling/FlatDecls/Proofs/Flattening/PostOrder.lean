import FlatDecls.Proofs.Flattening.Address
import FlatDecls.Proofs.Flattening.Performs

/-!
# Flattening is post-order

The units of an aggregate, said as a function of the aggregate and its assigned name alone:
first those of its nested fields, in order and each under the name `owner_field`, then the
structure itself. Registering an aggregate adds exactly these units, whatever is registered
already, and answers the position of the last one (`register_eq_postOrder`).
-/

namespace FlatDecls

mutual

/-- The units of an aggregate under an assigned name, in post-order. -/
def Aggregate.postOrder : Aggregate → (assigned : String) → List FlatUnit
  | ⟨_, _, fields, declarations, documentation⟩, assigned =>
    let blocks := Declaration.postOrders declarations
    let nested := fields.flatMap fun f ↦
      match f.type with
      | .nested i => (blocks[i.toNat]?).elim [] (· (assigned ++ "_" ++ f.name))
      | _ => []
    let flat := fields.flatMap (·.flatFields assigned)
    nested ++ [.struct { name := assigned, fields := flat, documentation }]

/-- The units of a declaration under an assigned name. -/
def Declaration.postOrder : Declaration → (assigned : String) → List FlatUnit
  | .aggregate a, assigned => a.postOrder assigned
  | .enumeration e, assigned =>
    let members := e.members.map fun m ↦
      { name := m.name, value := m.value, documentation := m.documentation }
    [.enum { name := assigned, members, documentation := e.documentation }]

/-- The units of each declaration of a list, waiting for its name. -/
def Declaration.postOrders : List Declaration → List (String → List FlatUnit)
  | [] => []
  | d :: ds => d.postOrder :: Declaration.postOrders ds

end

theorem Declaration.postOrders_eq_map (ds : List Declaration) :
    Declaration.postOrders ds = ds.map Declaration.postOrder := by
  induction ds with
  | nil => rfl
  | cons d ds ih => rw [Declaration.postOrders, ih, List.map_cons]

/-- The units that a field contributes. -/
def Site.postOrder (s : Site) : List FlatUnit :=
  match s.target? with
  | some d => d.postOrder s.nestedName
  | none => []

namespace Aggregate

/-- The units of an aggregate: what its fields contribute, in order, and then itself. -/
theorem postOrder_eq (a : Aggregate) (assigned : String) :
    a.postOrder assigned =
      a.fields.flatMap (fun f ↦ Site.postOrder ⟨a, assigned, f⟩)
        ++ [.struct (a.flat assigned)] := by
  have contributes (f : Field) : Site.postOrder ⟨a, assigned, f⟩ =
      match f.type with
      | .nested i =>
        ((Declaration.postOrders a.declarations)[i.toNat]?).elim [] (· (assigned ++ "_" ++ f.name))
      | _ => [] := by
    rw [Declaration.postOrders_eq_map]
    exact (Site.elim_nested ⟨a, assigned, f⟩ Declaration.postOrder).symm
  obtain ⟨name, kind, fields, declarations, documentation⟩ := a
  rw [Aggregate.postOrder]
  simp only [contributes]
  rfl

end Aggregate

/-- A field is entered and left without a unit of its own. -/
theorem Site.units_steps_eq (s : Site) : Walk.units s.steps = Walk.units s.nestedSteps := by
  rw [Walk.units, sources_steps, Walk.units]

/-- The walk over a declaration finishes its units in post-order. -/
theorem Declaration.units_steps (d : Declaration) (assigned : String) :
    Walk.units (d.steps assigned) = d.postOrder assigned := by
  induction d using Declaration.bodyInduction generalizing assigned with
  | enumeration e =>
    rw [steps_enumeration, Declaration.postOrder]
    rfl
  | aggregate a ih =>
    have below (f : Field) : Walk.units (Site.steps ⟨a, assigned, f⟩) =
        Site.postOrder ⟨a, assigned, f⟩ := by
      rw [Site.units_steps_eq, Site.nestedSteps, Site.postOrder]
      cases target : Site.target? ⟨a, assigned, f⟩ with
      | none => rfl
      | some d => exact ih d (Site.mem_of_target? target) _
    rw [steps_aggregate, Aggregate.steps_eq, Declaration.postOrder, Aggregate.postOrder_eq,
      Walk.units_append, Aggregate.bodySteps, Walk.units_flatMap]
    simp only [below]
    rfl

theorem Aggregate.units_steps (a : Aggregate) (assigned : String) :
    Walk.units (a.steps assigned) = a.postOrder assigned := by
  rw [← Declaration.steps_aggregate, Declaration.units_steps, Declaration.postOrder]

/-- The walk over a field finishes the units that it contributes. -/
theorem Site.units_steps (s : Site) : Walk.units s.steps = s.postOrder := by
  rw [units_steps_eq, nestedSteps, postOrder]
  cases s.target? with
  | none => rfl
  | some d => exact d.units_steps _

/-- The type names of a field's flat fields are there: the field refers to a declaration of its
owner, or else its flat type has a name. -/
structure Site.Resolves (s : Site) : Prop where
  declared : ∀ i, s.field.type = .nested i → ∃ d, s.owner.nested? i = some d
  named : (∀ i, s.field.type ≠ .nested i) →
    ∀ g ∈ s.field.flatFields s.assigned, s.field.flatType.typeName = .ok g.typeName

theorem Site.resolves_of_offence?_eq_none {s : Site} (h : s.offence? = none) : s.Resolves where
  declared _ type := exists_nested? type h
  named plain g hg := by rw [Field.typeName_of_mem_flatFields hg plain, typeName_flatType h plain]

namespace Aggregate

/-- A registered aggregate adds its units in post-order, whatever is registered already, and
answers the position of the last of them. All type names among them are there. -/
theorem register_eq_postOrder (a : Aggregate) (assigned : String) (p : Progress)
    (position : Nat) (h : ((a.register assigned).runFrom p).1 = .ok position) :
    ((a.register assigned).runFrom p).2.register.units =
        p.register.units ++ a.postOrder assigned ∧
      position + 1 = p.register.size + (a.postOrder assigned).length ∧
      ∀ address s, a.FieldAt assigned address s → s.Resolves := by
  have performs := a.performs_register assigned
  obtain ⟨clean, size⟩ := (performs.runFrom_eq_ok_iff p).1 h
  have units := performs.units_runFrom p
  rw [Walk.done_of_offence?_eq_none clean, ← Declaration.steps_aggregate,
    Declaration.units_steps, Declaration.postOrder] at units
  refine ⟨units, ?_, fun address s hs ↦ Site.resolves_of_offence?_eq_none ?_⟩
  -- the position is one less than the size, and there is at least one unit
  · have nonempty : 0 < (a.postOrder assigned).length := by simp [postOrder_eq]
    rw [Register.size, units, List.length_append] at size
    rw [Register.size]
    omega
  · refine Option.eq_none_iff_forall_ne_some.2 fun e he ↦ ?_
    exact Walk.offence?_ne_none_of_mem (enter_mem_steps_iff.2 ⟨address, hs⟩) he clean

/-- An array to unroll, a nested aggregate, and a bit-field of a nested enumeration. -/
def packet : Aggregate where
  fields :=
    [{ name := "data", type := .array (.primitive .uint8) (.constant 2) },
      { name := "inner", type := .nested 0 },
      { name := "kind", type := .nested 1, bitWidth := some 4 }]
  declarations :=
    [.aggregate { fields := [{ name := "next", type := .pointer (.named "P") }] },
      .enumeration { members := [{ name := "DATA", value := 7 }] }]

/-- Progress with one unit. -/
def oneUnit : Progress where
  register := ⟨[.struct { name := "Old" }]⟩

theorem register_packet_behind_unit :
    ((packet.register "P").runFrom oneUnit).1 = .ok 3 ∧
      ((packet.register "P").runFrom oneUnit).2.register.units =
        [.struct { name := "Old" },
          .struct { name := "P_inner", fields := [{ name := "next", typeName := "P*" }] },
          .enum { name := "P_kind", members := [{ name := "DATA", value := 7 }] },
          .struct
            { name := "P"
              fields :=
                [{ name := "data0", typeName := "uint8" },
                  { name := "data1", typeName := "uint8" },
                  { name := "inner", typeName := "P_inner" },
                  { name := "kind", typeName := "P_kind" }] }] :=
  ⟨rfl, (register_eq_postOrder packet "P" oneUnit 3 rfl).1⟩

end Aggregate

end FlatDecls
