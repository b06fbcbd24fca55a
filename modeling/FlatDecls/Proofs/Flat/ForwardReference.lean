import FlatDecls.Flat.Register

/-!
# Forward references

The first position of a name is at or before every unit of that name. So a field is no forward
reference once any unit with the name of its type stands before its structure
(`forwardReference?_eq_none`), and the forward references of a register are those of its fields
(`mem_forwardReferences_iff`).
-/

namespace FlatDecls.Register

variable {r : Register} {u v : FlatUnit} {f : FlatField} {name : String} {p q : Nat}

/-- The first position of the name of a unit is at or before the unit. -/
theorem exists_firstPosition?_le (h : r.units[q]? = some v) :
    ∃ t ≤ q, r.firstPosition? v.name = some t := by
  obtain ⟨bound, rfl⟩ := List.getElem?_eq_some_iff.1 h
  cases first : r.firstPosition? r.units[q].name with
  | none =>
    have absent := List.findIdx?_eq_none_iff.1 first r.units[q] (List.getElem_mem bound)
    simp at absent
  | some t =>
    obtain ⟨_, -, before⟩ := List.findIdx?_eq_some_iff_getElem.1 first
    refine ⟨t, Nat.le_of_not_lt fun earlier ↦ ?_, rfl⟩
    simpa using before q earlier

/-- A field is a forward reference if the name of its type is first registered at or after the
position of its structure. -/
theorem forwardReference?_eq_some_iff {ref : ForwardReference} :
    r.forwardReference? u p f = some ref ↔
      ∃ t, r.firstPosition? f.typeName = some t ∧ p ≤ t ∧
        ref = ⟨u.name, f.name, f.typeName, p, t⟩ := by
  rw [forwardReference?]
  cases r.firstPosition? f.typeName with
  | none => simp
  | some t => simp [eq_comm]

/-- A field whose type is the name of an earlier unit is no forward reference. -/
theorem forwardReference?_eq_none (h : r.units[q]? = some v) (named : v.name = f.typeName)
    (earlier : q < p) : r.forwardReference? u p f = none := by
  obtain ⟨t, ht, first⟩ := exists_firstPosition?_le h
  have before : ¬ p ≤ t := by omega
  rw [forwardReference?, ← named, first]
  exact if_neg before

/-- The forward references of a register are those of the fields of its units. -/
theorem mem_forwardReferences_iff {ref : ForwardReference} :
    ref ∈ r.forwardReferences ↔
      ∃ (p : Nat) (u : FlatUnit) (f : FlatField), r.units[p]? = some u ∧ f ∈ u.fields ∧
        r.forwardReference? u p f = some ref := by
  rw [forwardReferences, List.mem_flatMap]
  constructor
  · rintro ⟨⟨u, p⟩, hu, href⟩
    obtain ⟨f, hf, is⟩ := List.mem_filterMap.1 href
    exact ⟨p, u, f, List.mem_zipIdx_iff_getElem?.1 hu, hf, is⟩
  · rintro ⟨p, u, f, hu, hf, is⟩
    exact ⟨(u, p), List.mem_zipIdx_iff_getElem?.2 hu, List.mem_filterMap.2 ⟨f, hf, is⟩⟩

/-- The first position of a name is that of a unit that bears it and that no such unit precedes. -/
theorem firstPosition?_eq_some_iff {t : Nat} :
    r.firstPosition? name = some t ↔
      (∃ v, r.units[t]? = some v ∧ v.name = name) ∧
        ∀ q < t, ∀ v, r.units[q]? = some v → v.name ≠ name := by
  rw [firstPosition?, List.findIdx?_eq_some_iff_getElem]
  constructor
  · rintro ⟨bound, bears, before⟩
    refine ⟨⟨_, List.getElem?_eq_getElem bound, by simpa using bears⟩, ?_⟩
    intro q earlier v hv
    obtain ⟨_, rfl⟩ := List.getElem?_eq_some_iff.1 hv
    simpa using before q earlier
  · rintro ⟨⟨v, hv, bears⟩, before⟩
    obtain ⟨bound, rfl⟩ := List.getElem?_eq_some_iff.1 hv
    refine ⟨bound, by simpa using bears, fun q earlier ↦ ?_⟩
    have other := before q earlier _ (List.getElem?_eq_getElem (by omega))
    simpa using other

end Register

/-- What a forward reference says of a register: the structure and the target are the units at
these positions, the target is the first unit of its name, and it does not come before. -/
structure ForwardReference.HoldsIn (ref : ForwardReference) (r : Register) : Prop where
  structure_at : ∃ s, r.units[ref.position]? = some (.struct s) ∧ s.name = ref.structureName ∧
    ∃ f ∈ s.fields, f.name = ref.field ∧ f.typeName = ref.target
  target_at : ∃ v, r.units[ref.targetPosition]? = some v ∧ v.name = ref.target
  target_first : ∀ q < ref.targetPosition, ∀ v, r.units[q]? = some v → v.name ≠ ref.target
  late : ref.position ≤ ref.targetPosition

namespace Register

variable {r : Register} {u v : FlatUnit} {f : FlatField} {name : String} {p q : Nat}

/-- The forward references of a register are those that hold in it. -/
theorem mem_forwardReferences_iff_holdsIn {ref : ForwardReference} :
    ref ∈ r.forwardReferences ↔ ref.HoldsIn r := by
  rw [mem_forwardReferences_iff]
  constructor
  · rintro ⟨p, u, f, hu, hf, is⟩
    obtain ⟨t, first, late, rfl⟩ := forwardReference?_eq_some_iff.1 is
    obtain ⟨target, before⟩ := firstPosition?_eq_some_iff.1 first
    cases u with
    | struct s => exact ⟨⟨s, hu, rfl, f, hf, rfl, rfl⟩, target, before, late⟩
    | enum e => exact absurd hf List.not_mem_nil
  · rintro ⟨⟨s, hs, structureName, f, hf, field, type⟩, target, before, late⟩
    refine ⟨_, .struct s, f, hs, hf, forwardReference?_eq_some_iff.2 ⟨_, ?_, late, ?_⟩⟩
    · exact type ▸ firstPosition?_eq_some_iff.2 ⟨target, before⟩
    · rw [FlatUnit.name, structureName, field, type]

/-- The field is reported as a forward reference of the structure `owner` at position `p`. -/
def Reports (r : Register) (p : Nat) (owner : String) (f : FlatField) : Prop :=
  ∃ t, ⟨owner, f.name, f.typeName, p, t⟩ ∈ r.forwardReferences

/-- Whether a field is reported depends on where the name of its type is first registered. -/
theorem reports_iff (hu : r.units[p]? = some u) (hf : f ∈ u.fields) :
    r.Reports p u.name f ↔ ∃ t, r.firstPosition? f.typeName = some t ∧ p ≤ t := by
  constructor
  · rintro ⟨t, ht⟩
    obtain ⟨p', u', f', -, -, is⟩ := mem_forwardReferences_iff.1 ht
    obtain ⟨t', first, late, same⟩ := forwardReference?_eq_some_iff.1 is
    obtain ⟨-, -, name, rfl, rfl⟩ := ForwardReference.mk.inj same
    exact ⟨t, name ▸ first, late⟩
  · rintro ⟨t, first, late⟩
    exact ⟨t, mem_forwardReferences_iff.2
      ⟨p, u, f, hu, hf, forwardReference?_eq_some_iff.2 ⟨t, first, late, rfl⟩⟩⟩

end FlatDecls.Register
