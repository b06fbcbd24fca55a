import FlatDecls.Proofs.Flattening.Blocks

/-!
# Flattening under other names

The assigned name of an aggregate is the beginning of every name that flattening makes up for it,
and nothing else depends on it. On walks this is an equation: walking an aggregate under `n ++ s`
is walking it under `s`, with `n` in front of every assigned name (`Aggregate.steps_append`). So
the walk under the empty name says for all names at once what is flattened, and with what behind
the assigned name (`Aggregate.parts`).

Two runs under different names succeed or fail together, and their units, warnings and errors are
*twins*: made of the same parts, with one name where the other run has the other
(`Aggregate.register_twins`). The type name of a nested field is one of the names that are made up.
The type name of any other field is not, even if it begins like one.
-/

namespace FlatDecls

/-- A field that is not nested becomes the same flat fields for all owners. -/
theorem Field.flatFields_of_plain {f : Field} (plain : ∀ i, f.type ≠ .nested i) (x y : String) :
    f.flatFields x = f.flatFields y := by
  rw [flatFields, flatFields, flatSingle, flatSingle, storage_of_plain plain,
    storage_of_plain plain]

/-! ### Walks with a name in front -/

/-- The source with `n` in front of its name. -/
def Source.under (n : String) : Source → Source
  | aggregate a s => aggregate a (n ++ s)
  | enumeration e s => enumeration e (n ++ s)

/-- The site with `n` in front of its owner's name. -/
def Site.under (n : String) (t : Site) : Site := { t with assigned := n ++ t.assigned }

/-- The error with `n` in front of the owner's name. -/
def FlattenError.under (n : String) : FlattenError → FlattenError
  | danglingNested owner field i declared => danglingNested (n ++ owner) field i declared
  | unsupportedArray owner field size => unsupportedArray (n ++ owner) field size
  | unnamedType owner field cause => unnamedType (n ++ owner) field cause

/-- The step with `n` in front of the name that is assigned there. -/
def Step.under (n : String) : Step → Step
  | enter t => enter (t.under n)
  | leave t => leave (t.under n)
  | finish s => finish (s.under n)
  | skip name target => skip name target

namespace Site

variable (n : String) (t : Site)

/-- A prefix in front of the owner's name is in front of the names below it as well. -/
theorem nestedName_under : (t.under n).nestedName = n ++ t.nestedName := by
  simp only [nestedName, Field.nestedName_eq, under, String.append_assoc]

/-- A field offends under all names of its owner or under none. -/
theorem offence?_under : (t.under n).offence? = t.offence?.map (.under n) := by
  have naming (u : TypeRef) :
      (t.under n).namingOffence? u = (t.namingOffence? u).map (.under n) := by
    rw [namingOffence?, namingOffence?]
    cases u.nestedBase? <;> rfl
  have single : (t.under n).singleOffence? = t.singleOffence?.map (.under n) := by
    simp only [singleOffence?, under]
    split
    next i =>
      rw [apply_ite (Option.map (FlattenError.under n))]
      rfl
    next => exact naming _
  simp only [offence?, under]
  split
  · exact naming _
  · rfl
  · exact single

/-- The warning about a bit-field. -/
def warning : Diagnostic :=
  .bitFieldFlattened t.assigned t.field.name (t.field.bitWidth.getD 0)
    (t.field.storage t.assigned)

/-- A field gives rise to a warning if it is a bit-field. -/
theorem finding?_eq : t.finding? = if t.field.bitWidth.isSome then some t.warning else none := by
  rw [finding?, warning]
  cases t.field.bitWidth <;> rfl

end Site

/-- The bit-field that is left. -/
def Step.bitField? : Step → Option Site
  | leave t => if t.field.bitWidth.isSome then some t else none
  | _ => none

/-- A prefix changes the names in an offence, not whether there is one. -/
theorem Step.offence?_under (n : String) (step : Step) :
    (step.under n).offence? = step.offence?.map (.under n) := by
  cases step with
  | enter t => exact t.offence?_under n
  | _ => rfl

/-- A name in front of that of a declaration is in front of all names in its walk. -/
theorem Declaration.steps_append (d : Declaration) (n s : String) :
    d.steps (n ++ s) = (d.steps s).map (.under n) := by
  induction d using Declaration.bodyInduction generalizing s with
  | enumeration e =>
    rw [steps_enumeration, steps_enumeration]
    rfl
  | aggregate a ih =>
    have field (f : Field) :
        Site.steps ⟨a, n ++ s, f⟩ = (Site.steps ⟨a, s, f⟩).map (.under n) := by
      have below : Site.nestedSteps ⟨a, n ++ s, f⟩ =
          (Site.nestedSteps ⟨a, s, f⟩).map (.under n) := by
        have target : Site.target? ⟨a, n ++ s, f⟩ = Site.target? ⟨a, s, f⟩ := rfl
        have name : Site.nestedName ⟨a, n ++ s, f⟩ = n ++ Site.nestedName ⟨a, s, f⟩ :=
          Site.nestedName_under n ⟨a, s, f⟩
        rw [Site.nestedSteps, Site.nestedSteps, target, name]
        cases h : Site.target? ⟨a, s, f⟩ with
        | none => rfl
        | some d => exact ih d (Site.mem_of_target? h) _
      rw [Site.steps, Site.steps, below, List.map_append, List.map_cons]
      rfl
    rw [steps_aggregate, steps_aggregate, Aggregate.steps_eq, Aggregate.steps_eq,
      Aggregate.bodySteps, Aggregate.bodySteps, List.map_append, List.map_flatMap]
    simp only [field]
    rfl

/-- Only the walk over a source unit passes over aliases. -/
theorem Declaration.skip_notMem_steps (d : Declaration) (s name target : String) :
    .skip name target ∉ d.steps s := by
  induction d using Declaration.bodyInduction generalizing s with
  | enumeration e => simp
  | aggregate a ih =>
    have below (f : Field) : .skip name target ∉ Site.nestedSteps ⟨a, s, f⟩ := by
      rw [Site.nestedSteps]
      cases h : Site.target? ⟨a, s, f⟩ with
      | none => exact List.not_mem_nil
      | some d => exact ih d (Site.mem_of_target? h) _
    simp [Aggregate.steps_eq, Aggregate.bodySteps, Site.steps, below]

namespace Walk

variable (n : String) (w : Walk)

/-- So a walk under a prefix offends at the same step. -/
theorem offence?_under : offence? (w.map (.under n)) = (offence? w).map (.under n) := by
  induction w with
  | nil => rfl
  | cons step w ih =>
    rw [List.map_cons, offence?_cons, offence?_cons, ih, step.offence?_under]
    cases step.offence? <;> rfl

/-- The units under a prefix have the same sources, each with the prefix in front. -/
theorem sources_under : sources (w.map (.under n)) = (sources w).map (.under n) := by
  induction w with
  | nil => rfl
  | cons step w ih =>
    rw [List.map_cons, sources_cons, sources_cons, ih, List.map_append]
    cases step <;> rfl

/-- The bit-fields of a walk, in the order in which they are left. -/
def bitFields (w : Walk) : List Site := w.filterMap Step.bitField?

theorem bitFields_cons (step : Step) :
    bitFields (step :: w) = step.bitField?.toList ++ bitFields w := by
  cases h : step.bitField? <;> simp [bitFields, h]

/-- Without aliases that are passed over, the findings are the warnings about the bit-fields. -/
theorem findings_under (h : ∀ name target, .skip name target ∉ w) :
    findings (w.map (.under n)) = (bitFields w).map fun t ↦ (t.under n).warning := by
  induction w with
  | nil => rfl
  | cons step w ih =>
    have rest := ih fun name target hs ↦ h name target (List.mem_cons_of_mem _ hs)
    rw [List.map_cons, findings_cons, rest, bitFields_cons, List.map_append]
    cases step with
    | leave t =>
      have bits : (t.under n).field.bitWidth = t.field.bitWidth := rfl
      rw [Step.under, Step.finding?_leave, Site.finding?_eq, bits, Step.bitField?]
      split <;> rfl
    | skip name target => exact absurd List.mem_cons_self (h name target)
    | _ => rfl

end Walk

namespace Aggregate

variable (a : Aggregate)

/-- The walk of an aggregate under a longer name is its walk under the shorter one, with a
prefix. -/
theorem steps_append (n s : String) : a.steps (n ++ s) = (a.steps s).map (.under n) := by
  rw [← Declaration.steps_aggregate, ← Declaration.steps_aggregate a s, Declaration.steps_append]

/-- What is flattened for an aggregate, in order. Each part has the name that it gets behind the
name of the whole. -/
def parts : List Source := Walk.sources (a.steps "")

/-- The bit-fields that are flattened for an aggregate, in order. The name of each owner is what
stands behind the name of the whole. -/
def bitFields : List Site := Walk.bitFields (a.steps "")

/-- The walk under a name is the walk under the empty name with this name in front. -/
theorem steps_eq_map (n : String) : a.steps n = (a.steps "").map (.under n) := by
  rw [← a.steps_append, String.append_empty]

/-- The offence of an aggregate depends on its name by a prefix only. -/
theorem offence?_steps_eq_map (n : String) :
    Walk.offence? (a.steps n) = (Walk.offence? (a.steps "")).map (.under n) := by
  rw [steps_eq_map, Walk.offence?_under]

/-- The units under a name are the parts with this name in front. -/
theorem units_steps_eq_map (n : String) :
    Walk.units (a.steps n) = a.parts.map fun s ↦ (s.under n).toUnit := by
  rw [steps_eq_map, Walk.units, Walk.sources_under, List.map_map, parts]
  rfl

/-- The findings under a name are the warnings about the bit-fields with this name in front. -/
theorem findings_steps_eq_map (n : String) :
    Walk.findings (a.steps n) = a.bitFields.map fun t ↦ (t.under n).warning := by
  rw [steps_eq_map, bitFields]
  refine Walk.findings_under n _ fun name target ↦ ?_
  rw [← Declaration.steps_aggregate]
  exact Declaration.skip_notMem_steps _ _ name target

end Aggregate

/-! ### Twins -/

/-- Things of two runs that correspond position by position, as the same thing seen in both. -/
structure InStep (Twin : α → β → β → Prop) (xs : List α) (us vs : List β) : Prop where
  left : us.length = xs.length
  right : vs.length = xs.length
  twin : ∀ (i : Nat) x u v, xs[i]? = some x → us[i]? = some u → vs[i]? = some v → Twin x u v

/-- Two lists that are made of the same elements go in step. -/
theorem InStep.of_map {Twin : α → β → β → Prop} {xs : List α} {f g : α → β}
    (h : ∀ x ∈ xs, Twin x (f x) (g x)) : InStep Twin xs (xs.map f) (xs.map g) where
  left := List.length_map f
  right := List.length_map g
  twin i x u v hx hu hv := by
    rw [List.getElem?_map, hx, Option.map_some, Option.some.injEq] at hu hv
    rw [← hu, ← hv]
    exact h x (List.mem_of_getElem? hx)

section

variable (n m : String)

/-- The flat fields of some fields, for an owner whose name begins with `n` and for one whose name
begins with `m`. The type name of a nested field begins like the owner's name and goes on alike.
Any other field becomes the same flat fields. -/
inductive TwinFields : List Field → List FlatField → List FlatField → Prop
  | nil : TwinFields [] [] []
  | nested {f : Field} {i : UInt64} {s : String} {fs : List Field} {gs hs : List FlatField}
      (type : f.type = .nested i) (rest : TwinFields fs gs hs) :
      TwinFields (f :: fs) (⟨f.name, n ++ s, f.documentation⟩ :: gs)
        (⟨f.name, m ++ s, f.documentation⟩ :: hs)
  | plain {f : Field} {fs : List Field} {block gs hs : List FlatField}
      (type : ∀ i, f.type ≠ .nested i) (rest : TwinFields fs gs hs) :
      TwinFields (f :: fs) (block ++ gs) (block ++ hs)

/-- The units of one part: they have its name behind `n` and behind `m`, and differ in nothing else
but the type names of nested fields. -/
inductive TwinUnits : Source → FlatUnit → FlatUnit → Prop
  | struct {a : Aggregate} {s : String} {gs hs : List FlatField}
      (fields : TwinFields n m a.fields gs hs) :
      TwinUnits (.aggregate a s) (.struct ⟨n ++ s, gs, a.documentation⟩)
        (.struct ⟨m ++ s, hs, a.documentation⟩)
  | enum {e : Enumeration} {s : String} {members : List FlatMember} :
      TwinUnits (.enumeration e s) (.enum ⟨n ++ s, members, e.documentation⟩)
        (.enum ⟨m ++ s, members, e.documentation⟩)

/-- The warnings about one bit-field: the names of its owner are behind `n` and behind `m`, and so
are those of its storage type if it is nested. -/
inductive TwinWarnings : Site → Diagnostic → Diagnostic → Prop
  | nested {t : Site} {width : UInt32} {i : UInt64} {s : String}
      (bits : t.field.bitWidth = some width) (type : t.field.type = .nested i) :
      TwinWarnings t (.bitFieldFlattened (n ++ t.assigned) t.field.name width (n ++ s))
        (.bitFieldFlattened (m ++ t.assigned) t.field.name width (m ++ s))
  | plain {t : Site} {width : UInt32} {storage : String}
      (bits : t.field.bitWidth = some width) (type : ∀ i, t.field.type ≠ .nested i) :
      TwinWarnings t (.bitFieldFlattened (n ++ t.assigned) t.field.name width storage)
        (.bitFieldFlattened (m ++ t.assigned) t.field.name width storage)

/-- The same failure, where one owner's name begins with `n` and the other's with `m`. -/
inductive TwinErrors : FlattenError → FlattenError → Prop
  | dangling {s field : String} {i : UInt64} {declared : Nat} :
      TwinErrors (.danglingNested (n ++ s) field i declared)
        (.danglingNested (m ++ s) field i declared)
  | unsupported {s field : String} {size : ArraySize} :
      TwinErrors (.unsupportedArray (n ++ s) field size) (.unsupportedArray (m ++ s) field size)
  | unnamed {s field : String} {cause : UnnamedType} :
      TwinErrors (.unnamedType (n ++ s) field cause) (.unnamedType (m ++ s) field cause)

/-- Two runs of an aggregate from nothing that succeed or fail together. -/
inductive Aggregate.TwinRuns (a : Aggregate) :
    Except FlattenError Nat × Progress → Except FlattenError Nat × Progress → Prop
  | ok {position : Nat} {p q : Progress}
      (units : InStep (TwinUnits n m) a.parts p.register.units q.register.units)
      (findings : InStep (TwinWarnings n m) a.bitFields p.diagnostics.entries
        q.diagnostics.entries) :
      a.TwinRuns (.ok position, p) (.ok position, q)
  | error {e e' : FlattenError} {p q : Progress} (twin : TwinErrors n m e e') :
      a.TwinRuns (.error e, p) (.error e', q)

variable {n m}

/-- The fields under two names differ in the names of the types below them only. -/
theorem twinFields (fs : List Field) (s : String) :
    TwinFields n m fs (fs.flatMap (·.flatFields (n ++ s)))
      (fs.flatMap (·.flatFields (m ++ s))) := by
  have behind (f : Field) (k : String) : f.nestedName (k ++ s) = k ++ f.nestedName s := by
    simp only [Field.nestedName_eq, String.append_assoc]
  induction fs with
  | nil => exact .nil
  | cons f fs ih =>
    rw [List.flatMap_cons, List.flatMap_cons]
    by_cases nested : ∃ i, f.type = .nested i
    · obtain ⟨i, type⟩ := nested
      rw [Field.flatFields_of_nested type, Field.flatFields_of_nested type, behind, behind]
      exact .nested type ih
    · have plain : ∀ i, f.type ≠ .nested i := fun i type ↦ nested ⟨i, type⟩
      rw [Field.flatFields_of_plain plain (n ++ s) (m ++ s)]
      exact .plain plain ih

/-- So do the units. -/
theorem twinUnits (s : Source) : TwinUnits n m s (s.under n).toUnit (s.under m).toUnit := by
  cases s with
  | aggregate a s => exact .struct (twinFields a.fields s)
  | enumeration e s => exact .enum

theorem twinWarnings {t : Site} (h : t.field.bitWidth.isSome) :
    TwinWarnings n m t (t.under n).warning (t.under m).warning := by
  obtain ⟨width, bits⟩ := Option.isSome_iff_exists.1 h
  have warned (k : String) : (t.under k).warning = .bitFieldFlattened (k ++ t.assigned)
      t.field.name width (t.field.storage (k ++ t.assigned)) := by
    simp only [Site.warning, Site.under, bits, Option.getD_some]
  rw [warned, warned]
  by_cases nested : ∃ i, t.field.type = .nested i
  · obtain ⟨i, type⟩ := nested
    have behind (k : String) : t.field.storage (k ++ t.assigned) = k ++ t.nestedName := by
      rw [← Site.nestedName_under, Field.storage, type]
      rfl
    rw [behind, behind]
    exact .nested bits type
  · have plain : ∀ i, t.field.type ≠ .nested i := fun i type ↦ nested ⟨i, type⟩
    rw [Field.storage_of_plain plain, Field.storage_of_plain plain]
    exact .plain bits plain

/-- Errors differ in the name of the structure alone. -/
theorem twinErrors (e : FlattenError) : TwinErrors n m (e.under n) (e.under m) := by
  cases e with
  | danglingNested => exact .dangling
  | unsupportedArray => exact .unsupported
  | unnamedType => exact .unnamed

end

namespace Aggregate

variable (a : Aggregate) (n m : String)

/-- The units of an aggregate under two names are twins. -/
theorem inStep_postOrder : InStep (TwinUnits n m) a.parts (a.postOrder n) (a.postOrder m) := by
  rw [← units_steps, ← units_steps, units_steps_eq_map, units_steps_eq_map]
  exact .of_map fun s _ ↦ twinUnits s

theorem isSome_of_mem_bitFields {t : Site} (h : t ∈ a.bitFields) : t.field.bitWidth.isSome := by
  obtain ⟨step, -, left⟩ := List.mem_filterMap.1 h
  cases step with
  | leave t' =>
    rw [Step.bitField?, Option.ite_none_right_eq_some] at left
    obtain ⟨bits, same⟩ := left
    rwa [← Option.some.inj same]
  | _ => cases left

/-- The warnings about an aggregate under two names are twins. -/
theorem inStep_warnings :
    InStep (TwinWarnings n m) a.bitFields (a.warnings n) (a.warnings m) := by
  rw [← findings_steps, ← findings_steps, findings_steps_eq_map, findings_steps_eq_map]
  exact .of_map fun t ht ↦ twinWarnings (a.isSome_of_mem_bitFields ht)

/-- What an aggregate under a name comes to from nothing: the first offence, or all its units and
warnings. -/
theorem runFrom_register_empty :
    ∃ log, ((a.register n).runFrom {}) =
      match Walk.offence? (a.steps n) with
      | some e => (.error e, Progress.after {} (a.steps n) log)
      | none => (.ok ((a.postOrder n).length - 1),
          { register := ⟨a.postOrder n⟩, diagnostics := ⟨a.warnings n⟩, events := log }) := by
  obtain ⟨log, run⟩ := a.performs_register n {}
  refine ⟨log, run.trans ?_⟩
  cases clean : Walk.offence? (a.steps n) with
  | some e => rw [Walk.outcome, clean]
  | none =>
    have done := Walk.done_of_offence?_eq_none clean
    simp only [Walk.outcome, clean, Progress.after, done, units_steps, findings_steps,
      Register.size, List.nil_append]

/-- An aggregate that is flattened under two names succeeds or fails under both. Its units and
warnings, or the errors, are twins; and so are its blocks of units where two aliases are bound to
it. -/
theorem register_twins :
    a.TwinRuns n m ((a.register n).runFrom {}) ((a.register m).runFrom {}) ∧
      ∀ (u : SourceUnit) (q : Progress), u.flatten.runFrom {} = (.ok (), q) →
        ∀ (before between behind : List Alias) (x y : Alias),
          u.aliases = before ++ x :: between ++ y :: behind →
          u.BoundTo x.target a → u.BoundTo y.target a →
            ∃ us vs ws block twin, q.register.units = us ++ block ++ vs ++ twin ++ ws ∧
              InStep (TwinUnits x.name y.name) a.parts block twin := by
  refine ⟨?_, fun u q h before between behind x y aliases boundX boundY ↦ ?_⟩
  · obtain ⟨log, run⟩ := a.runFrom_register_empty n
    obtain ⟨log', run'⟩ := a.runFrom_register_empty m
    rw [run, run', offence?_steps_eq_map, offence?_steps_eq_map a m]
    cases Walk.offence? (a.steps "") with
    | some e => exact .error (twinErrors e)
    | none =>
      have units := a.inStep_postOrder n m
      have same : (a.postOrder n).length = (a.postOrder m).length :=
        units.left.trans units.right.symm
      rw [same]
      exact .ok units (a.inStep_warnings n m)
  · obtain ⟨-, units, -⟩ := SourceUnit.eq_of_flatten_eq_ok h
    have block := SourceUnit.block?_of_boundTo boundX
    have twin := SourceUnit.block?_of_boundTo boundY
    refine ⟨(before.filterMap u.block?).flatten, (between.filterMap u.block?).flatten,
      (behind.filterMap u.block?).flatten, _, _, ?_, a.inStep_postOrder x.name y.name⟩
    simp [units, SourceUnit.blocks, aliases, List.filterMap_append, block, twin]

end Aggregate

end FlatDecls
