import FlatDecls.Proofs.Flattening.Walk

/-!
# Runs perform walks

A part of a run *performs* a walk if, from any progress, it adds the units and findings of the
steps that are done before the first offence, and fails with that offence or gives its value.
The log is left open. The value may depend on the size of the register behind the part, and on
nothing else: that is what registering a unit gives back.

Performing is closed under sequencing (`Performs.bind`), so every part of a run is read off its
pieces, once and for all progress. The main statements are `Aggregate.performs_register`,
`Aggregate.performs_flatten`, `Site.performs_flatten` and `SourceUnit.performs_flatten`.
-/

namespace FlatDecls

/-- The first offence of a walk, or else a value. -/
def Walk.outcome (w : Walk) (value : α) : Except FlattenError α :=
  match Walk.offence? w with
  | some e => .error e
  | none => .ok value

/-- The progress behind the done steps of a walk, with what has been logged meanwhile. -/
def Progress.after (p : Progress) (w : Walk) (log : List Event) : Progress where
  register := ⟨p.register.units ++ Walk.units (Walk.done w)⟩
  diagnostics := ⟨p.diagnostics.entries ++ Walk.findings (Walk.done w)⟩
  events := p.events ++ log

namespace Progress

variable {v w : Walk}

/-- A run goes on behind a walk without an offence. -/
theorem after_after (p : Progress) (l l' : List Event) (h : Walk.offence? v = none) :
    (p.after v l).after w l' = p.after (v ++ w) (l ++ l') := by
  simp [after, Walk.done_of_offence?_eq_none h, Walk.done_append_of_offence?_eq_none h]

/-- An offence ends the run. -/
theorem after_append_of_offence (p : Progress) (l : List Event) {e : FlattenError}
    (h : Walk.offence? v = some e) : p.after (v ++ w) l = p.after v l := by
  simp [after, Walk.done_append_of_offence h]

end Progress

namespace Flatten

/-- The part `m` of a run performs the walk `w`. Its value is read off the size of the register
behind it. -/
def Performs (m : Flatten α) (w : Walk) (value : Nat → α) : Prop :=
  ∀ p : Progress, ∃ log : List Event,
    m.runFrom p = (Walk.outcome w (value (p.after w log).register.size), p.after w log)

namespace Performs

variable {m : Flatten α} {w : Walk} {value : Nat → α} (h : m.Performs w value) (p : Progress)

include h

/-- The done steps say which units are added. -/
theorem units_runFrom :
    (m.runFrom p).2.register.units = p.register.units ++ Walk.units (Walk.done w) := by
  obtain ⟨log, run⟩ := h p
  rw [run]
  rfl

/-- The done steps say which findings are added. -/
theorem findings_runFrom :
    (m.runFrom p).2.diagnostics.entries =
      p.diagnostics.entries ++ Walk.findings (Walk.done w) := by
  obtain ⟨log, run⟩ := h p
  rw [run]
  rfl

/-- A part fails with the first offence. -/
theorem runFrom_eq_error_iff {e : FlattenError} :
    (m.runFrom p).1 = .error e ↔ Walk.offence? w = some e := by
  obtain ⟨log, run⟩ := h p
  rw [run, Walk.outcome]
  cases Walk.offence? w <;> simp

/-- A part succeeds if there is no offence, and gives its value. -/
theorem runFrom_eq_ok_iff {a : α} :
    (m.runFrom p).1 = .ok a ↔
      Walk.offence? w = none ∧ value (m.runFrom p).2.register.size = a := by
  obtain ⟨log, run⟩ := h p
  rw [run, Walk.outcome]
  cases Walk.offence? w <;> simp

end Performs

/-- A part that adds nothing but to the log performs no step. -/
theorem Performs.of_log {m : Flatten α} {value : α}
    (h : ∀ p, ∃ log, m.runFrom p = (.ok value, { p with events := p.events ++ log })) :
    m.Performs [] (fun _ ↦ value) := by
  intro p
  obtain ⟨log, hm⟩ := h p
  refine ⟨log, hm.trans ?_⟩
  simp [Walk.outcome, Progress.after, Walk.units]

theorem performs_pure (value : α) : (pure value : Flatten α).Performs [] (fun _ ↦ value) :=
  .of_log fun p ↦ ⟨[], by simp⟩

theorem performs_log (e : Event) : (log e).Performs [] (fun _ ↦ ()) :=
  .of_log fun p ↦ ⟨[e], runFrom_log e p⟩

/-- Registering the unit of a source finishes the source, and gives the last position. -/
theorem performs_register (s : Source) :
    (register s.toUnit).Performs [.finish s] (· - 1) := by
  intro p
  refine ⟨[], ?_⟩
  simp [Walk.outcome, Walk.offence?_cons, Progress.after, Walk.done_cons, Walk.units,
    Register.push, Register.size]

/-- Reporting the finding of a step is that step. -/
theorem performs_report {s : Step} {d : Diagnostic} (h : s.finding? = some d) :
    (report d).Performs [s] (fun _ ↦ ()) := by
  intro p
  refine ⟨[], ?_⟩
  have harmless : s.offence? = none := by cases s <;> simp_all
  have unitless : s.source? = none := by cases s <;> simp_all
  simp [Walk.outcome, Walk.offence?_cons, harmless, Progress.after, Walk.done_cons, Walk.units,
    unitless, h, Diagnostics.add]

/-- Sequencing: a run goes on with what follows, unless it has failed. -/
theorem Performs.bind {m : Flatten α} {f : α → Flatten β} {v w : Walk} {value : Nat → α}
    {value' : Nat → β} (hm : m.Performs v value) (hf : ∀ n, (f (value n)).Performs w value') :
    (m >>= f).Performs (v ++ w) value' := by
  intro p
  obtain ⟨l, run⟩ := hm p
  rw [runFrom_bind, run]
  cases h : Walk.offence? v with
  | some e =>
    -- the second part is not reached, and neither is its walk
    refine ⟨l, ?_⟩
    simp [Walk.outcome, Walk.offence?_append, h, p.after_append_of_offence l h]
  | none =>
    obtain ⟨l', run'⟩ := hf (p.after v l).register.size (p.after v l)
    refine ⟨l ++ l', ?_⟩
    simp [Walk.outcome, h, run', Walk.offence?_append, p.after_after l l' h]

/-- A part behind which only its value is changed. -/
theorem Performs.map {m : Flatten α} {w : Walk} {value : Nat → α} (hm : m.Performs w value)
    (f : α → β) : (do return f (← m)).Performs w fun n ↦ f (value n) := by
  intro p
  obtain ⟨log, run⟩ := hm p
  refine ⟨log, ?_⟩
  rw [runFrom_bind, run, Walk.outcome, Walk.outcome]
  cases Walk.offence? w <;> rfl

/-- One part for each element of a list, in order. -/
theorem performs_mapM {f : α → Flatten β} {walk : α → Walk} {value : α → β} {xs : List α}
    (h : ∀ x ∈ xs, (f x).Performs (walk x) fun _ ↦ value x) :
    (xs.mapM f).Performs (xs.flatMap walk) fun _ ↦ xs.map value := by
  induction xs with
  | nil => exact performs_pure []
  | cons x xs ih =>
    rw [List.mapM_cons]
    refine (h x List.mem_cons_self).bind fun _ ↦ ?_
    exact (ih fun y hy ↦ h y (List.mem_cons_of_mem x hy)).map (value x :: ·)

/-- One part for each element of a list, for what it adds only. -/
theorem performs_forM {f : α → Flatten Unit} {walk : α → Walk} (xs : List α)
    (h : ∀ x ∈ xs, (f x).Performs (walk x) fun _ ↦ ()) :
    (xs.forM f).Performs (xs.flatMap walk) fun _ ↦ () := by
  induction xs with
  | nil => exact performs_pure ()
  | cons x xs ih =>
    refine (h x List.mem_cons_self).bind (f := fun _ ↦ xs.forM f) fun _ ↦ ?_
    exact ih fun y hy ↦ h y (List.mem_cons_of_mem x hy)

variable {m : Flatten α} {w : Walk} {value : Nat → α} {s : Site}

/-- A part that fails with the offence of a field does not come past the field. -/
theorem performs_of_offence {e : FlattenError} (h : s.offence? = some e)
    (hm : ∀ p, m.runFrom p = (.error e, p)) : m.Performs (.enter s :: w) value := by
  intro p
  refine ⟨[], (hm p).trans ?_⟩
  simp [Walk.outcome, Walk.offence?_cons, h, Progress.after, Walk.done_cons, Walk.units]

/-- Entering a field without an offence adds nothing. -/
theorem Performs.enter (hm : m.Performs w value) (h : s.offence? = none) :
    m.Performs (.enter s :: w) value := by
  intro p
  obtain ⟨log, run⟩ := hm p
  refine ⟨log, run.trans ?_⟩
  simp [Walk.outcome, Walk.offence?_cons, h, Progress.after, Walk.done_cons, Walk.units]

/-- Leaving a field without a finding adds nothing. -/
theorem Performs.leave (hm : m.Performs w value) (h : s.finding? = none) :
    m.Performs (w ++ [.leave s]) value := by
  intro p
  obtain ⟨log, run⟩ := hm p
  refine ⟨log, run.trans ?_⟩
  cases hw : Walk.offence? w with
  | some e =>
    simp [Walk.outcome, Walk.offence?_append, hw, p.after_append_of_offence log hw]
  | none =>
    have same : p.after (w ++ [.leave s]) log = p.after w log := by
      simp [Progress.after, Walk.done_append_of_offence?_eq_none hw,
        Walk.done_of_offence?_eq_none hw, Walk.done_cons, Walk.units, h]
    simp [Walk.outcome, Walk.offence?_append, Walk.offence?_cons, hw, same]

end Flatten

/-! ### Fields -/

namespace Site

variable {s : Site}

/-- The registrations that a field chooses from perform the walks over the declarations. -/
def RegistersBody (s : Site) : Prop :=
  ∀ d ∈ s.owner.declarations, ∀ n, (d.register n).Performs (d.steps n) (· - 1)

/-- The registrations of the owner's body. -/
abbrev nested (s : Site) : Registrations := Declaration.registrations s.owner.declarations

theorem typeNameIn_eq (s : Site) (t : TypeRef) :
    s.field.typeNameIn s.assigned t =
      match s.namingOffence? t with
      | some e => throw e
      | none => pure t.spelling := by
  rw [Field.typeNameIn, TypeRef.typeName_eq, namingOffence?]
  cases t.nestedBase? <;> rfl

/-- A type without a nested base is named, and no step is done for it. -/
theorem performs_typeNameIn {t : TypeRef} (h : s.namingOffence? t = none) :
    (s.field.typeNameIn s.assigned t).Performs [] fun _ ↦ t.spelling := by
  rw [typeNameIn_eq, h]
  exact Flatten.performs_pure _

/-- A nested field registers its target under its own name. -/
theorem performs_registerNested (hs : s.RegistersBody) {i : UInt64}
    (t : s.field.type = .nested i) (h : s.singleOffence? = none) :
    (s.field.registerNested s.nested s.assigned i).Performs s.nestedSteps
      fun _ ↦ s.nestedName := by
  obtain ⟨d, hd⟩ := exists_nested? t (offence?_of_nested t ▸ h)
  have target : s.target? = some d := (target?_of_nested t).trans hd
  rw [Aggregate.nested?] at hd
  rw [Field.registerNested, nestedSteps, target, nested, Declaration.registrations_eq_map,
    List.getElem?_map, hd]
  exact (hs d (List.mem_of_getElem? hd) s.nestedName).map fun _ ↦ s.nestedName

/-- Once its type is named, a field that is not unrolled becomes its one flat field. -/
theorem performs_flatSingle {m : Flatten String} {w : Walk}
    (hm : m.Performs w fun _ ↦ s.field.storage s.assigned) :
    Flatten.Performs (do
      let typeName ← m
      .log (.field s.assigned s.field.name typeName)
      return { name := s.field.name, typeName, documentation := s.field.documentation })
      w fun _ ↦ s.field.flatSingle s.assigned := by
  have logged (typeName : String) : Flatten.Performs (do
      .log (.field s.assigned s.field.name typeName)
      return { name := s.field.name, typeName, documentation := s.field.documentation })
      [] fun _ ↦ (⟨s.field.name, typeName, s.field.documentation⟩ : FlatField) :=
    (Flatten.performs_log _).bind fun _ ↦ Flatten.performs_pure _
  rw [← List.append_nil w]
  exact hm.bind fun _ ↦ logged (s.field.storage s.assigned)

/-- A field that is not unrolled and does not offend becomes its one flat field. -/
theorem performs_flattenSingle (hs : s.RegistersBody) (h : s.singleOffence? = none) :
    (s.field.flattenSingle s.nested s.assigned).Performs s.nestedSteps
      fun _ ↦ s.field.flatSingle s.assigned := by
  rw [Field.flattenSingle]
  cases t : s.field.type with
  | nested i =>
    have named : s.nestedName = s.field.storage s.assigned := by rw [Field.storage, t]; rfl
    exact performs_flatSingle (named ▸ performs_registerNested hs t h)
  | _ =>
    have plain : s.nestedSteps = [] := by rw [nestedSteps, target?, t]
    rw [singleOffence?, t] at h
    rw [plain]
    exact performs_flatSingle (by simpa [Field.storage, t] using performs_typeNameIn (s := s) h)

/-- The offence of a field that is not unrolled. -/
theorem runFrom_flattenSingle_of_offence {e : FlattenError} (h : s.singleOffence? = some e)
    (p : Progress) : (s.field.flattenSingle s.nested s.assigned).runFrom p = (.error e, p) := by
  rw [Field.flattenSingle]
  cases t : s.field.type with
  | nested i =>
    rw [singleOffence?, t] at h
    simp only [Option.ite_none_right_eq_some, Option.some.injEq] at h
    obtain ⟨short, rfl⟩ := h
    have missing : s.owner.declarations[i.toNat]? = none := List.getElem?_eq_none short
    simp [Field.registerNested, nested, missing]
  | _ =>
    rw [singleOffence?, t] at h
    simp [typeNameIn_eq, h]

/-- The walk of a field that is neither a bit-field nor an array. -/
theorem performs_plain (hs : s.RegistersBody) (h : s.offence? = s.singleOffence?)
    (plain : s.finding? = none) :
    (s.field.flattenSingle s.nested s.assigned).Performs s.steps
      fun _ ↦ s.field.flatSingle s.assigned := by
  cases o : s.singleOffence? with
  | some e => exact Flatten.performs_of_offence (h.trans o) (runFrom_flattenSingle_of_offence o)
  | none => exact ((performs_flattenSingle hs o).enter (h.trans o)).leave plain

/-- The walk of a bit-field: it is left with a warning. -/
theorem performs_flattenBits (hs : s.RegistersBody) {width : UInt32}
    (bits : s.field.bitWidth = some width) :
    (s.field.flattenBits s.nested s.assigned width).Performs s.steps
      fun _ ↦ s.field.flatSingle s.assigned := by
  have h : s.offence? = s.singleOffence? := by rw [offence?, bits]
  cases o : s.singleOffence? with
  | some e =>
    refine Flatten.performs_of_offence (h.trans o) fun p ↦ ?_
    rw [Field.flattenBits, Flatten.runFrom_bind, runFrom_flattenSingle_of_offence o]
  | none =>
    have finding : (Step.leave s).finding? = some (.bitFieldFlattened s.assigned s.field.name
        width (s.field.flatSingle s.assigned).typeName) := by
      rw [Step.finding?_leave, finding?, bits]
      rfl
    refine Flatten.Performs.enter ?_ (h.trans o)
    refine (performs_flattenSingle hs o).bind fun _ ↦ (Flatten.performs_log _).bind fun _ ↦ ?_
    exact (Flatten.performs_report finding).map fun _ ↦ s.field.flatSingle s.assigned

/-- The walk of an array that is not the type of a bit-field. -/
theorem performs_unroll {element : TypeRef} {length : UInt64} (bits : s.field.bitWidth = none)
    (t : s.field.type = .array element (.constant length)) :
    (s.field.unroll s.assigned element length).Performs s.steps
      fun _ ↦ s.field.elementFields element.spelling length.toNat := by
  have h : s.offence? = s.namingOffence? element := by rw [offence?, bits, t]
  cases o : s.namingOffence? element with
  | some e =>
    refine Flatten.performs_of_offence (h.trans o) fun p ↦ ?_
    rw [Field.unroll, Flatten.runFrom_bind, typeNameIn_eq, o]
    rfl
  | none =>
    have leaf : s.steps = .enter s :: [] ++ [.leave s] := by rw [steps, nestedSteps, target?, t]
    have plain : s.finding? = none := by rw [finding?, bits]; rfl
    rw [leaf]
    refine (Flatten.Performs.enter ?_ (h.trans o)).leave plain
    exact (performs_typeNameIn o).bind (w := []) fun _ ↦
      (Flatten.performs_log _).bind fun _ ↦ Flatten.performs_pure _

/-- A field performs its walk and becomes its flat fields. -/
theorem performs_flatten (hs : s.RegistersBody) :
    (s.field.flatten s.nested s.assigned).Performs s.steps
      fun _ ↦ s.field.flatFields s.assigned := by
  rw [Field.flatten, Field.flatFields]
  cases bits : s.field.bitWidth with
  | some width => exact (performs_flattenBits hs bits).map ([·])
  | none =>
    have plain : s.finding? = none := by rw [finding?, bits]; rfl
    cases t : s.field.type with
    | array element size =>
      cases size with
      | constant length => exact performs_unroll bits t
      -- an open size fails before the element type is looked at
      | _ => exact Flatten.performs_of_offence (by rw [offence?, bits, t]) fun _ ↦ rfl
    | _ => exact (performs_plain hs (by rw [offence?, bits, t]) plain).map ([·])

end Site

/-! ### Declarations -/

/-- The fields of an aggregate perform its walk if the declarations in its body do. -/
theorem Aggregate.performs_flatten_of_body (a : Aggregate) (assigned : String)
    (hb : ∀ d ∈ a.declarations, ∀ n, (d.register n).Performs (d.steps n) (· - 1)) :
    (a.flatten assigned).Performs (a.bodySteps assigned) fun _ ↦ a.flat assigned := by
  obtain ⟨name, kind, fields, declarations, documentation⟩ := a
  let a : Aggregate := ⟨name, kind, fields, declarations, documentation⟩
  have flat := Flatten.performs_mapM fun f (_ : f ∈ fields) ↦
    Site.performs_flatten (s := ⟨a, assigned, f⟩) hb
  rw [Aggregate.flatten]
  exact (Flatten.performs_log _).bind fun _ ↦ flat.map fun fs ↦
    ({ name := assigned, fields := fs.flatten, documentation } : FlatStructure)

/-- A registered declaration performs its walk; the value is its own position. -/
theorem Declaration.performs_register (d : Declaration) (assigned : String) :
    (d.register assigned).Performs (d.steps assigned) (· - 1) := by
  induction d using Declaration.bodyInduction generalizing assigned with
  | aggregate a ih =>
    rw [register_aggregate, Aggregate.register, steps_aggregate, Aggregate.steps_eq]
    exact (a.performs_flatten_of_body assigned ih).bind fun _ ↦
      Flatten.performs_register (.aggregate a assigned)
  | enumeration e =>
    rw [Declaration.register, steps_enumeration]
    exact (Flatten.performs_log _).bind fun _ ↦
      Flatten.performs_register (.enumeration e assigned)

namespace Aggregate

theorem performs_register (a : Aggregate) (assigned : String) :
    (a.register assigned).Performs (a.steps assigned) (· - 1) := by
  simpa using (Declaration.aggregate a).performs_register assigned

/-- A flattened aggregate performs the walk over its fields and becomes its flat structure. -/
theorem performs_flatten (a : Aggregate) (assigned : String) :
    (a.flatten assigned).Performs (a.bodySteps assigned) fun _ ↦ a.flat assigned :=
  a.performs_flatten_of_body assigned fun d _ n ↦ d.performs_register n

/-- Any field can be flattened for an owner, whether the owner has it or not. -/
theorem performs_flattenField (a : Aggregate) (assigned : String) (f : Field) :
    (a.flattenField assigned f).Performs (Site.steps ⟨a, assigned, f⟩)
      fun _ ↦ f.flatFields assigned :=
  Site.performs_flatten (s := ⟨a, assigned, f⟩) fun d _ n ↦ d.performs_register n

end Aggregate

/-! ### Source units -/

namespace SourceUnit

theorem performs_flattenAlias (u : SourceUnit) (a : Alias) :
    (u.flattenAlias a).Performs (u.aliasSteps a) fun _ ↦ () := by
  rw [flattenAlias, aliasSteps]
  cases u.aliasedAggregate? a with
  | some aggregate =>
    exact (aggregate.performs_register a.name).map fun _ ↦ ()
  | none =>
    cases a.target with
    | aggregate b => exact Flatten.performs_log _
    | type t =>
      cases t with
      | named target =>
        cases h : u.declares target with
        | true => simpa [h] using Flatten.performs_log (.skippedAlias a.name)
        | false =>
          simp only [h]
          exact (Flatten.performs_log _).bind fun _ ↦
            Flatten.performs_report (s := .skip a.name target) rfl
      | _ => exact Flatten.performs_log _

theorem performs_logFinished : logFinished.Performs [] fun _ ↦ () :=
  .of_log fun p ↦ ⟨[.finished p.register.size p.diagnostics.size], rfl⟩

/-- A flattened source unit performs the walks for its aliases. -/
theorem performs_flatten (u : SourceUnit) : u.flatten.Performs u.steps fun _ ↦ () := by
  rw [flatten, steps, ← List.append_nil (List.flatMap _ _)]
  exact (Flatten.performs_forM u.aliases fun a _ ↦ u.performs_flattenAlias a).bind
    fun _ ↦ performs_logFinished

end SourceUnit

end FlatDecls
