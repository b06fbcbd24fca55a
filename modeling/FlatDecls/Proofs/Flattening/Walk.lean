import FlatDecls.Flattening.SourceUnit
import FlatDecls.Proofs.Naming

/-!
# Walks over declaration trees

Flattening reads a tree in a fixed order and never looks at what it has added before. So what it
does to a tree can be said without a run: as the *walk* over the tree, a list of steps that
depends on the tree and the assigned name only. A field is entered, the declaration that it
refers to is walked, and the field is left; a declaration is finished behind its fields.

A walk goes on behind a field that cannot be flattened. A run does not: it does the steps
before the first offence, which is the longest part of a walk without one (`Walk.done`).

The walk over an aggregate is a structural recursion that is handed the walks over the
declarations in its body. `Aggregate.steps_eq` and `Site.steps` are how it is read.
-/

namespace FlatDecls

/-! ### Sites and sources -/

/-- A field in its place: its owner, and the name under which the owner is flattened. -/
structure Site where
  owner : Aggregate
  assigned : String
  field : Field

/-- What a unit is flattened from, with the name that it gets. -/
inductive Source
  | aggregate (a : Aggregate) (assigned : String)
  | enumeration (e : Enumeration) (assigned : String)

namespace Field

theorem nestedName_eq (f : Field) (owner : String) :
    f.nestedName owner = owner ++ "_" ++ f.name := rfl

/-- The name of the type of a field, apart from any unrolling. -/
def storage (f : Field) (owner : String) : String :=
  match f.type with
  | .nested _ => f.nestedName owner
  | t => t.spelling

/-- The one flat field of a field that is not unrolled. -/
def flatSingle (f : Field) (owner : String) : FlatField where
  name := f.name
  typeName := f.storage owner
  documentation := f.documentation

/-- The flat fields of a field whose owner gets the name `owner`. An array of constant length
becomes one field for each element, unless it is the type of a bit-field. -/
def flatFields (f : Field) (owner : String) : List FlatField :=
  match f.bitWidth, f.type with
  | none, .array element (.constant length) =>
    (List.range length.toNat).map fun k ↦
      { name := f.name ++ toString k, typeName := element.spelling }
  | _, _ => [f.flatSingle owner]

/-- A nested field becomes one field, with or without a bit width. -/
theorem flatFields_of_nested {f : Field} {i : UInt64} (type : f.type = .nested i)
    (owner : String) :
    f.flatFields owner =
      [{ name := f.name, typeName := f.nestedName owner, documentation := f.documentation }] := by
  rw [flatFields, type]
  cases f.bitWidth <;> simp [flatSingle, storage, type]

/-- The type that the flat fields of a field are of. -/
def flatType (f : Field) : TypeRef :=
  match f.bitWidth, f.type with
  | none, .array element (.constant _) => element
  | _, t => t

/-- A type that is not nested is stored under its own name. -/
theorem storage_of_plain {f : Field} (plain : ∀ i, f.type ≠ .nested i) (owner : String) :
    f.storage owner = f.type.spelling := by
  rw [storage]
  split
  next i type => exact absurd type (plain i)
  next => rfl

/-- The flat fields of a field that is not nested name its flat type. -/
theorem typeName_of_mem_flatFields {f : Field} {owner : String} {g : FlatField}
    (hg : g ∈ f.flatFields owner) (plain : ∀ i, f.type ≠ .nested i) :
    g.typeName = f.flatType.spelling := by
  have single := storage_of_plain plain owner
  rw [flatFields] at hg
  rw [flatType]
  split at hg
  next =>
    obtain ⟨k, -, rfl⟩ := List.mem_map.1 hg
    rfl
  next => rw [List.mem_singleton.1 hg, flatSingle, single]

end Field

/-- The flat structure of an aggregate under an assigned name. -/
def Aggregate.flat (a : Aggregate) (assigned : String) : FlatStructure where
  name := assigned
  fields := a.fields.flatMap (·.flatFields assigned)
  documentation := a.documentation

/-- The unit that a source becomes. -/
def Source.toUnit : Source → FlatUnit
  | aggregate a assigned => .struct (a.flat assigned)
  | enumeration e assigned => .enum (e.flatten assigned)

/-- The name that a source gets. -/
def Source.assigned : Source → String
  | aggregate _ assigned => assigned
  | enumeration _ assigned => assigned

/-- A unit bears the name that its source was assigned. -/
@[simp]
theorem Source.name_toUnit (s : Source) : s.toUnit.name = s.assigned := by
  cases s <;> rfl

namespace Site

/-- The declaration in the owner's body that the field's type refers to. -/
def target? (s : Site) : Option Declaration :=
  match s.field.type with
  | .nested i => s.owner.nested? i
  | _ => none

/-- The name that the target gets. -/
def nestedName (s : Site) : String := s.field.nestedName s.assigned

/-- A type is not named if it ends in a nested declaration. -/
def namingOffence? (s : Site) (t : TypeRef) : Option FlattenError :=
  t.nestedBase?.map fun i ↦ .unnamedType s.assigned s.field.name ⟨i⟩

/-- Why a field that is not unrolled cannot be flattened, if it cannot. -/
def singleOffence? (s : Site) : Option FlattenError :=
  match s.field.type with
  | .nested i =>
    if s.owner.declarations.length ≤ i.toNat then
      some (.danglingNested s.assigned s.field.name i s.owner.declarations.length)
    else none
  | t => s.namingOffence? t

/-- Why a field cannot be flattened, if it cannot. -/
def offence? (s : Site) : Option FlattenError :=
  match s.field.bitWidth, s.field.type with
  | none, .array element (.constant _) => s.namingOffence? element
  | none, .array _ size => some (.unsupportedArray s.assigned s.field.name size)
  | _, _ => s.singleOffence?

/-- A field with the type of an inner declaration is no array, so it is judged as a single field. -/
theorem offence?_of_nested {s : Site} {i : UInt64} (t : s.field.type = .nested i) :
    s.offence? = s.singleOffence? := by
  rw [offence?, t]
  cases s.field.bitWidth <;> rfl

/-- Such a field leads to the declaration at its position in the body of its owner. -/
theorem target?_of_nested {s : Site} {i : UInt64} (t : s.field.type = .nested i) :
    s.target? = s.owner.nested? i := by
  rw [target?, t]

/-- A field has a target if it is of nested type and its owner has the declaration. -/
theorem target?_eq_some_iff {s : Site} {d : Declaration} :
    s.target? = some d ↔ ∃ i, s.field.type = .nested i ∧ s.owner.nested? i = some d := by
  rw [target?]
  cases s.field.type <;> simp

/-- A nested field that does not offend refers to a declaration of its owner. -/
theorem exists_nested? {s : Site} {i : UInt64} (t : s.field.type = .nested i)
    (h : s.offence? = none) : ∃ d, s.owner.nested? i = some d := by
  rw [offence?_of_nested t] at h
  have bound : i.toNat < s.owner.declarations.length := by simpa [singleOffence?, t] using h
  exact ⟨_, List.getElem?_eq_getElem bound⟩

/-- A field that does not offend has a named flat type, unless it is nested. -/
theorem typeName_flatType {s : Site} (h : s.offence? = none)
    (plain : ∀ i, s.field.type ≠ .nested i) :
    s.field.flatType.typeName = .ok s.field.flatType.spelling := by
  apply TypeRef.typeName_of_nestedBase?_eq_none
  have single : s.singleOffence? = s.namingOffence? s.field.type := by
    rw [singleOffence?]
    split
    next i type => exact absurd type (plain i)
    next => rfl
  rw [offence?] at h
  rw [Field.flatType]
  split at h
  next bits type =>
    rw [bits, type]
    simpa [namingOffence?] using h
  next => contradiction
  next noArray =>
    split
    next element length bits type => exact absurd type (noArray element _ bits)
    next => simpa [single, namingOffence?] using h

/-- The warning about a bit-field. -/
def finding? (s : Site) : Option Diagnostic :=
  s.field.bitWidth.map fun width ↦
    .bitFieldFlattened s.assigned s.field.name width (s.field.storage s.assigned)

end Site

/-! ### Steps -/

/-- A step of a walk. -/
inductive Step
  | enter (s : Site)
  | leave (s : Site)
  | finish (s : Source)
  /-- An alias for a name that is not declared. -/
  | skip (name target : String)

/-- Steps in order. -/
abbrev Walk := List Step

namespace Step

/-- A walk meets an offence where it enters a field. -/
def offence? : Step → Option FlattenError
  | enter s => s.offence?
  | _ => none

/-- A source becomes a unit when all of it is done. -/
def source? : Step → Option Source
  | finish s => some s
  | _ => none

/-- Bit-fields are reported when they are done, aliases when they are passed over. -/
def finding? : Step → Option Diagnostic
  | leave s => s.finding?
  | skip name target => some (.aliasSkipped name target)
  | _ => none

variable (t : Site) (s : Source) (name target : String)

@[simp] theorem offence?_enter : (enter t).offence? = t.offence? := rfl
@[simp] theorem offence?_leave : (leave t).offence? = none := rfl
@[simp] theorem offence?_finish : (finish s).offence? = none := rfl
@[simp] theorem offence?_skip : (skip name target).offence? = none := rfl

@[simp] theorem source?_enter : (enter t).source? = none := rfl
@[simp] theorem source?_leave : (leave t).source? = none := rfl
@[simp] theorem source?_finish : (finish s).source? = some s := rfl
@[simp] theorem source?_skip : (skip name target).source? = none := rfl

@[simp] theorem finding?_enter : (enter t).finding? = none := rfl
@[simp] theorem finding?_leave : (leave t).finding? = t.finding? := rfl
@[simp] theorem finding?_finish : (finish s).finding? = none := rfl
@[simp] theorem finding?_skip :
    (skip name target).finding? = some (.aliasSkipped name target) := rfl

end Step

namespace Walk

/-- The first offence. -/
def offence? (w : Walk) : Option FlattenError := w.findSome? Step.offence?

/-- The steps before the first offence. -/
def done (w : Walk) : Walk := w.takeWhile (·.offence?.isNone)

/-- The sources of a walk, in the order in which they are done. -/
def sources (w : Walk) : List Source := w.filterMap Step.source?

/-- The units of a walk, in order. -/
def units (w : Walk) : List FlatUnit := w.sources.map Source.toUnit

/-- The findings of a walk, in order. -/
def findings (w : Walk) : List Diagnostic := w.filterMap Step.finding?

/-- Only the end of a declaration contributes a source. -/
@[simp]
theorem sources_cons (s : Step) (w : Walk) : sources (s :: w) = s.source?.toList ++ sources w := by
  cases s <;> rfl

/-- A finding is made when a field is left or an alias is passed over. -/
@[simp]
theorem findings_cons (s : Step) (w : Walk) :
    findings (s :: w) = s.finding?.toList ++ findings w := by
  cases h : s.finding? <;> simp [findings, h]

/-- The first offence of a walk is that of its first step that has one. -/
theorem offence?_cons (s : Step) (w : Walk) :
    offence? (s :: w) = s.offence?.or (offence? w) := by
  cases h : s.offence? <;> simp [offence?, h]

/-- Nothing is done from the first offence on. -/
theorem done_cons (s : Step) (w : Walk) :
    done (s :: w) = if s.offence? = none then s :: done w else [] := by
  cases h : s.offence? <;> simp [done, h]

@[simp] theorem sources_nil : sources [] = [] := rfl

@[simp] theorem findings_nil : findings [] = [] := rfl

@[simp] theorem offence?_nil : offence? [] = none := rfl

@[simp] theorem done_nil : done [] = [] := rfl

variable (v w : Walk)

@[simp]
theorem sources_append : sources (v ++ w) = sources v ++ sources w := List.filterMap_append

/-- Two walks in a row register the units of the first before those of the second. -/
@[simp]
theorem units_append : units (v ++ w) = units v ++ units w := by
  simp [units]

@[simp]
theorem findings_append : findings (v ++ w) = findings v ++ findings w := List.filterMap_append

/-- A source of a walk is one that it finishes. -/
theorem mem_sources_iff {w : Walk} {s : Source} : s ∈ w.sources ↔ .finish s ∈ w := by
  rw [sources, List.mem_filterMap]
  constructor
  · rintro ⟨step, hs, source⟩
    cases step <;> simp_all
  · intro h
    exact ⟨_, h, rfl⟩

/-- Sources of walks in a row. -/
theorem sources_flatMap (walk : α → Walk) (xs : List α) :
    sources (xs.flatMap walk) = xs.flatMap fun x ↦ sources (walk x) :=
  List.filterMap_flatMap

/-- Units of walks in a row. -/
theorem units_flatMap (walk : α → Walk) (xs : List α) :
    units (xs.flatMap walk) = xs.flatMap fun x ↦ units (walk x) := by
  rw [units, sources_flatMap, List.map_flatMap]
  rfl

/-- Findings of walks in a row. -/
theorem findings_flatMap (walk : α → Walk) (xs : List α) :
    findings (xs.flatMap walk) = xs.flatMap fun x ↦ findings (walk x) :=
  List.filterMap_flatMap

/-- The second of two walks is reached only if the first meets no offence. -/
theorem offence?_append : offence? (v ++ w) = (offence? v).or (offence? w) :=
  List.findSome?_append

variable {v w}

/-- Behind an offence nothing is done. -/
theorem done_append_of_offence {e : FlattenError} (h : offence? v = some e) :
    done (v ++ w) = done v := by
  induction v with
  | nil => simp [offence?] at h
  | cons s v ih =>
    cases hs : s.offence? with
    | some e' => simp [done, hs]
    | none =>
      have rest : offence? v = some e := by simpa [offence?, hs] using h
      simpa [done, hs] using ih rest

/-- Without an offence all steps are done, and what follows goes on from there. -/
theorem done_append_of_offence?_eq_none (h : offence? v = none) :
    done (v ++ w) = v ++ done w := by
  have clean : ∀ s ∈ v, s.offence?.isNone := by
    simpa [offence?, List.findSome?_eq_none_iff] using h
  exact List.takeWhile_append_of_pos clean

/-- A walk without an offence is gone to its end. -/
theorem done_of_offence?_eq_none (h : offence? v = none) : done v = v := by
  simpa [done] using done_append_of_offence?_eq_none (w := []) h

end Walk

/-! ### Walks over trees -/

/-- The walk over a field, given the walks over the declarations in its owner's body. -/
def Site.stepsWith (s : Site) (walks : List (String → Walk)) : Walk :=
  let inner :=
    match s.field.type with
    | .nested i => (walks[i.toNat]?).elim [] (· s.nestedName)
    | _ => []
  .enter s :: inner ++ [.leave s]

mutual

/-- The walk over an aggregate under an assigned name. -/
def Aggregate.steps : Aggregate → (assigned : String) → Walk
  | ⟨name, kind, fields, declarations, documentation⟩, assigned =>
    let a : Aggregate := ⟨name, kind, fields, declarations, documentation⟩
    let walks := Declaration.walks declarations
    fields.flatMap (fun f ↦ Site.stepsWith ⟨a, assigned, f⟩ walks)
      ++ [.finish (.aggregate a assigned)]

/-- The walk over a declaration under an assigned name. -/
def Declaration.steps : Declaration → (assigned : String) → Walk
  | .aggregate a, assigned => a.steps assigned
  | .enumeration e, assigned => [.finish (.enumeration e assigned)]

/-- The walks over a list of declarations. -/
def Declaration.walks : List Declaration → List (String → Walk)
  | [] => []
  | d :: ds => d.steps :: Declaration.walks ds

end

/-- The walk over the declaration that a field refers to. -/
def Site.nestedSteps (s : Site) : Walk :=
  match s.target? with
  | some d => d.steps s.nestedName
  | none => []

/-- The walk over a field. -/
def Site.steps (s : Site) : Walk := .enter s :: s.nestedSteps ++ [.leave s]

/-- A field contributes what lies below it and nothing of its own: fields are no units. -/
@[simp]
theorem Site.sources_steps (s : Site) : Walk.sources s.steps = Walk.sources s.nestedSteps := by
  simp [steps]

/-- The walk over the fields of an aggregate. -/
def Aggregate.bodySteps (a : Aggregate) (assigned : String) : Walk :=
  a.fields.flatMap fun f ↦ Site.steps ⟨a, assigned, f⟩

/-- The list of walks that the mutual recursion builds is the list of the declarations' walks. -/
theorem Declaration.walks_eq_map (ds : List Declaration) :
    Declaration.walks ds = ds.map Declaration.steps := by
  induction ds with
  | nil => rfl
  | cons d ds ih => rw [Declaration.walks, ih, List.map_cons]

/-- What is given for each declaration of the owner's body is chosen by the field's target. -/
theorem Site.elim_nested (s : Site) (value : Declaration → String → List α) :
    (match s.field.type with
      | .nested i => ((s.owner.declarations.map value)[i.toNat]?).elim [] (· s.nestedName)
      | _ => []) =
      match s.target? with
      | some d => value d s.nestedName
      | none => [] := by
  rw [target?]
  cases s.field.type with
  | nested i =>
    simp only [List.getElem?_map, Aggregate.nested?]
    cases s.owner.declarations[i.toNat]? <;> rfl
  | _ => rfl

/-- At a field the recursion looks a walk up by position, and this is the walk of the declaration
that the field leads to. -/
theorem Site.stepsWith_walks (s : Site) :
    s.stepsWith (Declaration.walks s.owner.declarations) = s.steps := by
  rw [stepsWith, steps, nestedSteps, Declaration.walks_eq_map, ← elim_nested s Declaration.steps]

/-- An aggregate is finished behind its fields. -/
theorem Aggregate.steps_eq (a : Aggregate) (assigned : String) :
    a.steps assigned = a.bodySteps assigned ++ [.finish (.aggregate a assigned)] := by
  obtain ⟨name, kind, fields, declarations, documentation⟩ := a
  rw [Aggregate.steps, bodySteps]
  simp only [← Site.stepsWith_walks]

@[simp]
theorem Declaration.steps_aggregate (a : Aggregate) (assigned : String) :
    (Declaration.aggregate a).steps assigned = a.steps assigned := by
  rw [Declaration.steps]

@[simp]
theorem Declaration.steps_enumeration (e : Enumeration) (assigned : String) :
    (Declaration.enumeration e).steps assigned = [.finish (.enumeration e assigned)] := by
  rw [Declaration.steps]

namespace SourceUnit

/-- The walk for an alias. -/
def aliasSteps (u : SourceUnit) (a : Alias) : Walk :=
  match u.aliasedAggregate? a with
  | some aggregate => aggregate.steps a.name
  | none =>
    match a.target with
    | .type (.named target) => if u.declares target then [] else [.skip a.name target]
    | _ => []

/-- The walk for all aliases, in order. -/
def steps (u : SourceUnit) : Walk := u.aliases.flatMap u.aliasSteps

end SourceUnit

/-! ### Induction over declarations -/

/-- A property of an aggregate may be assumed of the aggregates declared in its body. -/
@[elab_as_elim]
theorem Aggregate.bodyInduction {P : Aggregate → Prop}
    (step : ∀ a, (∀ b, Declaration.aggregate b ∈ a.declarations → P b) → P a) (a : Aggregate) :
    P a :=
  step a fun b hb ↦
    -- `b` stands in the list of declarations, which is a part of `a`
    have : sizeOf b < sizeOf a := by
      obtain ⟨name, kind, fields, declarations, documentation⟩ := a
      have smaller := List.sizeOf_lt_of_mem hb
      simp only [Declaration.aggregate.sizeOf_spec] at smaller
      simp only [Aggregate.mk.sizeOf_spec]
      omega
    bodyInduction step b
termination_by sizeOf a

/-- A property of a declared aggregate may be assumed of the declarations in its body. -/
@[elab_as_elim]
theorem Declaration.bodyInduction {P : Declaration → Prop}
    (aggregate : ∀ a, (∀ d ∈ a.declarations, P d) → P (.aggregate a))
    (enumeration : ∀ e, P (.enumeration e)) (d : Declaration) : P d := by
  have declared (a : Aggregate) : P (.aggregate a) := by
    induction a using Aggregate.bodyInduction with
    | step a ih =>
      refine aggregate a fun d hd ↦ ?_
      cases d with
      | aggregate b => exact ih b hd
      | enumeration e => exact enumeration e
  cases d with
  | aggregate a => exact declared a
  | enumeration e => exact enumeration e

/-- The target of a field is declared in the body of its owner. -/
theorem Site.mem_of_target? {s : Site} {d : Declaration} (h : s.target? = some d) :
    d ∈ s.owner.declarations := by
  obtain ⟨i, -, declared⟩ := target?_eq_some_iff.1 h
  exact List.mem_of_getElem? declared

end FlatDecls
