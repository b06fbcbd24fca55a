import FlatDecls.Proofs.Flat.ForwardReference
import FlatDecls.Proofs.Flattening.Session

/-!
# Nested units come first

A walk is *well nested* if every aggregate in it is finished right behind the walk over its
fields. Walks over trees are, and so are beginnings of well-nested walks and such walks in a row;
hence the trail of every session, whatever fails in it (`Session.wellNested_trail`).

The fields before a finished structure did not offend, so each nested one among them has its unit
further up in the register. Other units may bear the same name: the first of them is then even
further up. So no field of nested type is ever a forward reference (`Session.nested_first`).
-/

namespace FlatDecls

/-! ### Well-nested walks -/

namespace Walk

/-- Every aggregate is finished right behind the walk over its fields. -/
inductive WellNested : Walk → Prop
  | nil : WellNested []
  | step {w : Walk} {s : Step} (rest : WellNested w)
      (other : ∀ b assigned, s ≠ .finish (.aggregate b assigned)) : WellNested (w ++ [s])
  | finish {w : Walk} {b : Aggregate} {assigned : String} (rest : WellNested w)
      (body : b.bodySteps assigned <:+ w) : WellNested (w ++ [.finish (.aggregate b assigned)])

variable {v w : Walk} {s : Step}

namespace WellNested

/-- Well-nested walks in a row. -/
theorem append (hv : v.WellNested) (hw : w.WellNested) : (v ++ w).WellNested := by
  induction hw with
  | nil => rwa [List.append_nil]
  | step rest other ih =>
    rw [← List.append_assoc]
    exact ih.step other
  | finish rest body ih =>
    rw [← List.append_assoc]
    exact ih.finish (List.suffix_append_of_suffix body)

/-- Beginnings of well-nested walks. -/
theorem of_prefix (hw : w.WellNested) (h : v <+: w) : v.WellNested := by
  induction hw with
  | nil =>
    rw [List.prefix_nil.1 h]
    exact nil
  | step rest other ih =>
    rcases List.prefix_concat_iff.1 h with rfl | h
    · exact rest.step other
    · exact ih h
  | finish rest body ih =>
    rcases List.prefix_concat_iff.1 h with rfl | h
    · exact rest.finish body
    · exact ih h

/-- What stands before a finished aggregate ends with the walk over its fields. -/
theorem bodySteps_suffix {b : Aggregate} {assigned : String}
    (h : WellNested (v ++ .finish (.aggregate b assigned) :: w)) : b.bodySteps assigned <:+ v := by
  have h' : WellNested (v ++ [.finish (.aggregate b assigned)]) := h.of_prefix ⟨w, by simp⟩
  -- the last constructor has to be the one that finishes this aggregate
  generalize split : v ++ [Step.finish (.aggregate b assigned)] = u at h'
  cases h' with
  | nil => simp at split
  | step rest other =>
    obtain ⟨-, same⟩ := List.append_inj' split rfl
    exact absurd (List.singleton_inj.1 same).symm (other b assigned)
  | finish rest body =>
    obtain ⟨rfl, same⟩ := List.append_inj' split rfl
    cases same
    exact body

theorem flatMap {walk : α → Walk} {xs : List α} (h : ∀ x ∈ xs, (walk x).WellNested) :
    WellNested (xs.flatMap walk) := by
  induction xs with
  | nil => exact nil
  | cons x xs ih =>
    rw [List.flatMap_cons]
    exact (h x List.mem_cons_self).append (ih fun y hy ↦ h y (List.mem_cons_of_mem x hy))

end WellNested

/-- A step that finishes no aggregate. -/
theorem wellNested_singleton (other : ∀ b assigned, s ≠ .finish (.aggregate b assigned)) :
    WellNested [s] :=
  WellNested.nil.step other

end Walk

/-- The walk over a field is well nested if that over its target is. -/
theorem Site.wellNested_steps {s : Site}
    (h : ∀ d, s.target? = some d → ∀ n, (d.steps n).WellNested) : s.steps.WellNested := by
  have inner : s.nestedSteps.WellNested := by
    rw [nestedSteps]
    cases target : s.target? with
    | none => exact .nil
    | some d => exact h d target s.nestedName
  rw [steps]
  exact ((Walk.wellNested_singleton (by simp)).append inner).append
    (Walk.wellNested_singleton (by simp))

/-- The walk over the fields of an aggregate is well nested if those over its body are. -/
theorem Aggregate.wellNested_bodySteps_of_body {a : Aggregate}
    (h : ∀ d ∈ a.declarations, ∀ n, (d.steps n).WellNested) (assigned : String) :
    (a.bodySteps assigned).WellNested :=
  .flatMap fun _ _ ↦ Site.wellNested_steps fun d target ↦ h d (Site.mem_of_target? target)

/-- The walk over a declaration is well nested. -/
theorem Declaration.wellNested_steps (d : Declaration) (assigned : String) :
    (d.steps assigned).WellNested := by
  induction d using Declaration.bodyInduction generalizing assigned with
  | aggregate a ih =>
    rw [steps_aggregate, Aggregate.steps_eq]
    exact (Aggregate.wellNested_bodySteps_of_body ih assigned).finish List.suffix_rfl
  | enumeration e => simpa using Walk.wellNested_singleton (by simp)

theorem Aggregate.wellNested_steps (a : Aggregate) (assigned : String) :
    (a.steps assigned).WellNested := by
  simpa using (Declaration.aggregate a).wellNested_steps assigned

theorem SourceUnit.wellNested_aliasSteps (u : SourceUnit) (a : Alias) :
    (u.aliasSteps a).WellNested := by
  rw [aliasSteps]
  split
  next b _ => exact b.wellNested_steps a.name
  next =>
    split
    next target _ =>
      split
      · exact .nil
      · exact Walk.wellNested_singleton (by simp)
    next => exact .nil

/-- The walk of an operation is well nested. -/
theorem Operation.wellNested_walk (o : Operation) : o.walk.WellNested := by
  cases o with
  | register a assigned => exact a.wellNested_steps assigned
  | flatten a assigned =>
    exact Aggregate.wellNested_bodySteps_of_body (fun d _ ↦ d.wellNested_steps) assigned
  | flattenField a assigned f => exact Site.wellNested_steps fun d _ ↦ d.wellNested_steps
  | process u => exact .flatMap fun a _ ↦ u.wellNested_aliasSteps a

/-- The trail of a session is well nested, whatever fails in it. -/
theorem Session.wellNested_trail (s : Session) : s.trail.WellNested :=
  .flatMap fun o _ ↦ o.wellNested_walk.of_prefix (List.takeWhile_prefix _)

/-! ### Positions of nested units -/

/-- A source is done where its walk says, with the sources before it in front. -/
theorem Walk.exists_split_of_sources {w : Walk} {p : Nat} {s : Source}
    (h : (Walk.sources w)[p]? = some s) :
    ∃ before after, w = before ++ .finish s :: after ∧ (Walk.sources before).length = p := by
  induction w generalizing p with
  | nil => simp at h
  | cons step w ih =>
    cases source : step.source? with
    | none =>
      rw [sources_cons, source] at h
      obtain ⟨before, after, rfl, length⟩ := ih h
      exact ⟨step :: before, after, rfl, by simpa [source] using length⟩
    | some t =>
      obtain rfl : step = .finish t := by cases step <;> simp_all
      cases p with
      | zero =>
        obtain rfl : t = s := by simpa using h
        exact ⟨[], w, rfl, rfl⟩
      | succ p =>
        obtain ⟨before, after, rfl, length⟩ := ih (p := p) (by simpa using h)
        exact ⟨.finish t :: before, after, rfl, by simp [length]⟩

/-- The walk over a declaration finishes it under its name. -/
theorem Declaration.exists_finish_mem_steps (d : Declaration) (assigned : String) :
    ∃ s : Source, s.assigned = assigned ∧ .finish s ∈ d.steps assigned := by
  cases d with
  | aggregate a => exact ⟨.aggregate a assigned, rfl, by simp [Aggregate.steps_eq]⟩
  | enumeration e => exact ⟨.enumeration e assigned, rfl, by simp⟩

namespace Session

variable {s : Session} {p : Nat} {b : Aggregate} {assigned : String} {f : Field} {i : UInt64}

/-- A nested field of a registered aggregate has its unit before the aggregate. -/
theorem exists_nested_before (h : s.provenance[p]? = some (.aggregate b assigned))
    (hf : f ∈ b.fields) (type : f.type = .nested i) :
    ∃ q < p, ∃ u, s.run.register.units[q]? = some u ∧ u.name = f.nestedName assigned := by
  obtain ⟨before, after, split, length⟩ := Walk.exists_split_of_sources h
  have body : b.bodySteps assigned <:+ before := (split ▸ s.wellNested_trail).bodySteps_suffix
  have site : Site.steps ⟨b, assigned, f⟩ ⊆ before :=
    fun step hs ↦ body.subset (List.mem_flatMap.2 ⟨f, hf, hs⟩)
  -- the field did not offend, so its target was walked over
  have clean : Site.offence? ⟨b, assigned, f⟩ = none := by
    have entered : Step.enter ⟨b, assigned, f⟩ ∈ before := site (by simp [Site.steps])
    exact offence?_of_mem_trail (split ▸ List.mem_append_left _ entered)
  obtain ⟨d, hd⟩ := Site.exists_nested? type clean
  have target : Site.target? ⟨b, assigned, f⟩ = some d := (Site.target?_of_nested type).trans hd
  obtain ⟨t, name, finished⟩ := d.exists_finish_mem_steps (f.nestedName assigned)
  have done : .finish t ∈ before := by
    refine site ?_
    rw [Site.steps, Site.nestedSteps, target]
    simp [Site.nestedName, finished]
  obtain ⟨q, source⟩ := List.getElem?_of_mem (Walk.mem_sources_iff.2 done)
  obtain ⟨bound, -⟩ := List.getElem?_eq_some_iff.1 source
  have unit : s.provenance[q]? = some t := by
    rw [provenance, split, Walk.sources_append, List.getElem?_append_left bound, source]
  exact ⟨q, length ▸ bound, t.toUnit, by simp [units_run, unit], by simp [name]⟩

/-- A forward reference is a flat field of a field that is not nested. -/
theorem exists_plain_of_mem_forwardReferences {r : ForwardReference}
    (hr : r ∈ s.run.register.forwardReferences) :
    ∃ b assigned f, s.provenance[r.position]? = some (.aggregate b assigned) ∧ f ∈ b.fields ∧
      (∀ i, f.type ≠ .nested i) ∧
      ∃ g ∈ f.flatFields assigned, r.structureName = assigned ∧ r.field = g.name ∧
        r.target = g.typeName := by
  obtain ⟨p, u, g, hu, hg, is⟩ := Register.mem_forwardReferences_iff.1 hr
  obtain ⟨t, -, -, rfl⟩ := Register.forwardReference?_eq_some_iff.1 is
  rw [units_run, List.getElem?_map, Option.map_eq_some_iff] at hu
  obtain ⟨source, provenance, rfl⟩ := hu
  cases source with
  | enumeration e assigned => exact absurd hg List.not_mem_nil
  | aggregate b assigned =>
    obtain ⟨f, hf, hg⟩ := List.mem_flatMap.1 hg
    refine ⟨b, assigned, f, provenance, hf, fun i type ↦ ?_, g, hg, rfl, rfl, rfl⟩
    rw [Field.flatFields_of_nested type, List.mem_singleton] at hg
    -- of a nested field the name is there already, so it would not have been reported
    obtain ⟨q, earlier, v, hv, name⟩ := exists_nested_before provenance hf type
    rw [hg, Register.forwardReference?_eq_none hv name earlier] at is
    contradiction

/-- In every session, the flat field of a nested field names a unit that stands before its
structure, so it is no forward reference. Every forward reference comes from another field. -/
theorem nested_first (s : Session) :
    s.run.register.units = s.provenance.map Source.toUnit ∧
      (∀ p b assigned, s.provenance[p]? = some (.aggregate b assigned) →
        ∀ before f after i, b.fields = before ++ f :: after → f.type = .nested i →
          let g : FlatField :=
            { name := f.name
              typeName := assigned ++ "_" ++ f.name
              documentation := f.documentation }
          (b.flat assigned).fields =
              before.flatMap (·.flatFields assigned) ++ g :: after.flatMap (·.flatFields assigned) ∧
            (∃ q < p, ∃ u, s.run.register.units[q]? = some u ∧ u.name = g.typeName) ∧
            s.run.register.forwardReference? (.struct (b.flat assigned)) p g = none) ∧
      ∀ r ∈ s.run.register.forwardReferences, ∃ b assigned f,
        s.provenance[r.position]? = some (.aggregate b assigned) ∧ f ∈ b.fields ∧
          (∀ i, f.type ≠ .nested i) ∧
          ∃ g ∈ f.flatFields assigned, r.structureName = assigned ∧ r.field = g.name ∧
            r.target = g.typeName := by
  refine ⟨s.units_run, fun p b assigned source before f after i fields type ↦ ?_,
    fun r hr ↦ exists_plain_of_mem_forwardReferences hr⟩
  have member : f ∈ b.fields := by simp [fields]
  obtain ⟨q, earlier, u, hu, name⟩ := exists_nested_before source member type
  refine ⟨?_, ⟨q, earlier, u, hu, name⟩, Register.forwardReference?_eq_none hu name earlier⟩
  simp [Aggregate.flat, fields, Field.flatFields_of_nested type, Field.nestedName_eq]

end Session

end FlatDecls
