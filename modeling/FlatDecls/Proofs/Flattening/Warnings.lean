import Mathlib.Data.List.Perm.Basic
import FlatDecls.Proofs.Flattening.Walk

/-!
# The warnings about an aggregate

The warnings of flattening, said as a function of the aggregate and its assigned name alone:
field by field, first those about the aggregate that the field refers to, and then the field's
own if it is a bit-field. A walk finds exactly these, in this order (`Declaration.findings_steps`).
So a declaration that several fields share is warned about once for each of them.

Flattening gives a structure for each aggregate that a walk comes to, and the warnings are those
about the bit-fields of these structures, in another order (`Declaration.findings_perm_sources`).
-/

namespace FlatDecls

/-- The warning about a field, if it is a bit-field: it names the type of the flat field that the
bit-field becomes. -/
def Field.ownWarnings (f : Field) (owner : String) : List Diagnostic :=
  match f.bitWidth with
  | some width =>
    (f.flatFields owner).map fun g ↦ .bitFieldFlattened owner f.name width g.typeName
  | none => []

/-- A field that is no bit-field is not warned about. -/
theorem Field.ownWarnings_of_none {f : Field} (bits : f.bitWidth = none) (owner : String) :
    f.ownWarnings owner = [] := by
  rw [ownWarnings, bits]

/-- No bit-field is unrolled: there is one flat field for it, and one warning. -/
theorem Field.ownWarnings_of_some {f : Field} {width : UInt32} (bits : f.bitWidth = some width)
    (owner : String) : f.flatFields owner = [f.flatSingle owner] ∧
      f.ownWarnings owner =
        [.bitFieldFlattened owner f.name width (f.flatSingle owner).typeName] := by
  have single : f.flatFields owner = [f.flatSingle owner] := by rw [flatFields, bits]
  exact ⟨single, by rw [ownWarnings, bits, single]; rfl⟩

mutual

/-- The warnings about an aggregate under an assigned name. -/
def Aggregate.warnings : Aggregate → (assigned : String) → List Diagnostic
  | ⟨_, _, fields, declarations, _⟩, assigned =>
    let lists := Declaration.warningLists declarations
    fields.flatMap fun f ↦
      let below :=
        match f.type with
        | .nested i => (lists[i.toNat]?).elim [] (· (assigned ++ "_" ++ f.name))
        | _ => []
      below ++ f.ownWarnings assigned

/-- The warnings about a declaration under an assigned name. -/
def Declaration.warnings : Declaration → (assigned : String) → List Diagnostic
  | .aggregate a, assigned => a.warnings assigned
  | .enumeration _, _ => []

/-- The warnings about each declaration of a list, waiting for its name. -/
def Declaration.warningLists : List Declaration → List (String → List Diagnostic)
  | [] => []
  | d :: ds => d.warnings :: Declaration.warningLists ds

end

theorem Declaration.warningLists_eq_map (ds : List Declaration) :
    Declaration.warningLists ds = ds.map Declaration.warnings := by
  induction ds with
  | nil => rfl
  | cons d ds ih => rw [Declaration.warningLists, ih, List.map_cons]

namespace Site

/-- The warnings about what a field refers to. -/
def warningsBelow (s : Site) : List Diagnostic :=
  match s.target? with
  | some d => d.warnings s.nestedName
  | none => []

/-- The warnings that a field is due to, its own behind those below it. -/
def warnings (s : Site) : List Diagnostic :=
  s.warningsBelow ++ s.field.ownWarnings s.assigned

/-- A bit-field is left with its own warning. -/
theorem toList_finding? (s : Site) : s.finding?.toList = s.field.ownWarnings s.assigned := by
  rw [finding?]
  cases bits : s.field.bitWidth with
  | none => exact (Field.ownWarnings_of_none bits _).symm
  | some width => exact (Field.ownWarnings_of_some bits _).2.symm

/-- The findings of the walk over a field. -/
theorem findings_steps_eq (s : Site) :
    Walk.findings s.steps = Walk.findings s.nestedSteps ++ s.field.ownWarnings s.assigned := by
  rw [steps, Walk.findings_append, ← toList_finding?]
  simp

end Site

/-- The warnings about an aggregate are those of its fields, in order. -/
theorem Aggregate.warnings_eq (a : Aggregate) (assigned : String) :
    a.warnings assigned = a.fields.flatMap fun f ↦ Site.warnings ⟨a, assigned, f⟩ := by
  have below (f : Field) : Site.warningsBelow ⟨a, assigned, f⟩ =
      match f.type with
      | .nested i =>
        ((Declaration.warningLists a.declarations)[i.toNat]?).elim []
          (· (assigned ++ "_" ++ f.name))
      | _ => [] := by
    rw [Declaration.warningLists_eq_map]
    exact (Site.elim_nested ⟨a, assigned, f⟩ Declaration.warnings).symm
  simp only [Site.warnings, below]
  obtain ⟨name, kind, fields, declarations, documentation⟩ := a
  rw [Aggregate.warnings]

/-- The warnings about an aggregate, with those about the declaration that a field refers to. -/
theorem Aggregate.warnings_eq_flatMap (a : Aggregate) (assigned : String) :
    a.warnings assigned = a.fields.flatMap fun f ↦
      (match f.type with
        | .nested i =>
          match a.declarations[i.toNat]? with
          | some (.aggregate b) => b.warnings (assigned ++ "_" ++ f.name)
          | _ => []
        | _ => []) ++ f.ownWarnings assigned := by
  rw [warnings_eq]
  congr 1
  funext f
  rw [Site.warnings, Site.warningsBelow, Site.target?]
  cases f.type with
  | nested i =>
    simp only [nested?]
    rcases a.declarations[i.toNat]? with _ | ⟨b | e⟩
    · rfl
    · rfl
    · rfl
  | _ => rfl

/-- The walk over a declaration finds the warnings about it. -/
theorem Declaration.findings_steps (d : Declaration) (assigned : String) :
    Walk.findings (d.steps assigned) = d.warnings assigned := by
  induction d using Declaration.bodyInduction generalizing assigned with
  | enumeration e =>
    rw [steps_enumeration, Declaration.warnings]
    rfl
  | aggregate a ih =>
    have below (f : Field) : Walk.findings (Site.steps ⟨a, assigned, f⟩) =
        Site.warnings ⟨a, assigned, f⟩ := by
      rw [Site.findings_steps_eq, Site.warnings, Site.warningsBelow, Site.nestedSteps]
      cases target : Site.target? ⟨a, assigned, f⟩ with
      | none => rfl
      | some d => rw [ih d (Site.mem_of_target? target)]
    rw [steps_aggregate, Aggregate.steps_eq, Declaration.warnings, Aggregate.warnings_eq,
      Walk.findings_append, Aggregate.bodySteps, Walk.findings_flatMap]
    simp only [below]
    exact List.append_nil _

theorem Aggregate.findings_steps (a : Aggregate) (assigned : String) :
    Walk.findings (a.steps assigned) = a.warnings assigned := by
  rw [← Declaration.steps_aggregate, Declaration.findings_steps, Declaration.warnings]

/-- The walk over a field finds the warnings that it is due to. -/
theorem Site.findings_steps (s : Site) : Walk.findings s.steps = s.warnings := by
  rw [findings_steps_eq, warnings, warningsBelow, nestedSteps]
  cases s.target? with
  | none => rfl
  | some d => rw [d.findings_steps]

/-! ### Warnings and units -/

namespace Source

/-- The bit-fields of the structure that a source becomes. -/
def bitFields : Source → List Field
  | aggregate a _ => a.fields.filter (·.bitWidth.isSome)
  | enumeration _ _ => []

/-- The warnings about the fields of the structure that a source becomes. -/
def ownWarnings : Source → List Diagnostic
  | aggregate a assigned => a.fields.flatMap (·.ownWarnings assigned)
  | enumeration _ _ => []

/-- There is one warning for each bit-field. -/
theorem length_ownWarnings (s : Source) : s.ownWarnings.length = s.bitFields.length := by
  cases s with
  | enumeration e assigned => rfl
  | aggregate a assigned =>
    rw [ownWarnings, bitFields]
    induction a.fields with
    | nil => rfl
    | cons f fs ih =>
      rw [List.flatMap_cons, List.length_append, ih, List.filter_cons]
      cases bits : f.bitWidth with
      | none => simp [Field.ownWarnings_of_none bits]
      | some width => simp [(Field.ownWarnings_of_some bits assigned).2, Nat.add_comm]

end Source

/-- Up to their order, the findings of the walk over a declaration are the warnings about the
fields of the structures that it becomes. -/
theorem Declaration.findings_perm_sources (d : Declaration) (assigned : String) :
    (Walk.findings (d.steps assigned)).Perm
      ((Walk.sources (d.steps assigned)).flatMap Source.ownWarnings) := by
  induction d using Declaration.bodyInduction generalizing assigned with
  | enumeration e =>
    rw [steps_enumeration]
    exact .refl _
  | aggregate a ih =>
    let site (f : Field) : Site := ⟨a, assigned, f⟩
    have below (f : Field) : (Walk.findings (site f).nestedSteps).Perm
        ((Walk.sources (site f).nestedSteps).flatMap Source.ownWarnings) := by
      rw [Site.nestedSteps]
      cases target : (site f).target? with
      | none => exact .refl _
      | some d => exact ih d (Site.mem_of_target? target) _
    have sources : Walk.sources (a.steps assigned) =
        a.fields.flatMap (fun f ↦ Walk.sources (site f).nestedSteps)
          ++ [.aggregate a assigned] := by
      rw [Aggregate.steps_eq, Walk.sources_append, Aggregate.bodySteps, Walk.sources_flatMap]
      simp [site]
    rw [steps_aggregate, sources, Aggregate.steps_eq, Walk.findings_append, Aggregate.bodySteps,
      Walk.findings_flatMap]
    -- the warnings of all fields are those below the fields and then the fields' own
    calc a.fields.flatMap (fun f ↦ Walk.findings (site f).steps) ++ []
        = a.fields.flatMap fun f ↦
            Walk.findings (site f).nestedSteps ++ f.ownWarnings assigned := by
          simp only [List.append_nil, Site.findings_steps_eq, site]
      List.Perm _ (a.fields.flatMap (fun f ↦ Walk.findings (site f).nestedSteps)
            ++ a.fields.flatMap (·.ownWarnings assigned)) :=
          (List.flatMap_append_perm _ _ _).symm
      List.Perm _ (a.fields.flatMap (fun f ↦
            (Walk.sources (site f).nestedSteps).flatMap Source.ownWarnings)
            ++ a.fields.flatMap (·.ownWarnings assigned)) :=
          (List.Perm.flatMap_left _ fun f _ ↦ below f).append_right _
      _ = _ := by simp [List.flatMap_assoc, Source.ownWarnings]

theorem Aggregate.findings_perm_sources (a : Aggregate) (assigned : String) :
    (Walk.findings (a.steps assigned)).Perm
      ((Walk.sources (a.steps assigned)).flatMap Source.ownWarnings) := by
  rw [← Declaration.steps_aggregate]
  exact (Declaration.aggregate a).findings_perm_sources assigned

end FlatDecls
