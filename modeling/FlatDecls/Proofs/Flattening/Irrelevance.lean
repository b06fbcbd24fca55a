import FlatDecls.Proofs.Flattening.Blocks

/-!
# What flattening does not look at

An aggregate is flattened under an assigned name, and whatever it declares is too. So its declared
name is never looked at, nor those of the declarations in its body, and neither is whether it is a
structure or a union. A declaration in a body to which no field refers is not looked at at all:
it only counts.

Two aggregates that differ in such things, at any depth, are *alike*. Their walks enter different
sites, because a site holds its whole owner, but each step of the one has the effect of that step of
the other (`Declaration.Alike.effects_steps`). A run shows nothing of a walk but effects, so runs on
aggregates that are alike agree (`Aggregate.register_agree_of_alike`).
-/

namespace FlatDecls

/-! ### Aggregates that are alike -/

mutual

/-- Aggregates with the same fields and documentation and equally many declarations, of which those
to which a field refers are alike. -/
inductive Aggregate.Alike : Aggregate → Aggregate → Prop
  | intro {a b : Aggregate} (fields : a.fields = b.fields)
      (documentation : a.documentation = b.documentation)
      (length : a.declarations.length = b.declarations.length)
      (referred : ∀ f ∈ a.fields, ∀ i d d', f.type = .nested i → a.nested? i = some d →
        b.nested? i = some d' → Declaration.Alike d d') :
      Aggregate.Alike a b

/-- Two aggregates that are alike, or two enumerations that have at most different names. -/
inductive Declaration.Alike : Declaration → Declaration → Prop
  | aggregate {a b : Aggregate} (h : Aggregate.Alike a b) :
      Declaration.Alike (.aggregate a) (.aggregate b)
  | enumeration {e e' : Enumeration} (members : e.members = e'.members)
      (documentation : e.documentation = e'.documentation) :
      Declaration.Alike (.enumeration e) (.enumeration e')

end

/-! ### Effects -/

/-- What a run shows of a step. -/
structure Effect where
  offence? : Option FlattenError
  unit? : Option FlatUnit
  finding? : Option Diagnostic

/-- The effect of a step. Of a site only the names and the field are in it, and of its owner the
number of declarations if the field refers beyond them. -/
def Step.effect (s : Step) : Effect := ⟨s.offence?, s.source?.map Source.toUnit, s.finding?⟩

/-- Sources that become the same unit are finished with the same effect. -/
theorem Step.effect_finish_congr {s t : Source} (h : s.toUnit = t.toUnit) :
    (finish s).effect = (finish t).effect := by
  rw [effect, effect, source?_finish, source?_finish, Option.map_some, Option.map_some, h]
  rfl

/-- Sites with the same offence are entered with the same effect. -/
theorem Step.effect_enter_congr {s t : Site} (h : s.offence? = t.offence?) :
    (enter s).effect = (enter t).effect := by
  rw [effect, effect, offence?_enter, offence?_enter, h]
  rfl

namespace Walk

/-- The effects of a walk, in order. -/
def effects (w : Walk) : List Effect := w.map Step.effect

@[simp]
theorem effects_append (v w : Walk) : effects (v ++ w) = effects v ++ effects w := List.map_append

@[simp]
theorem effects_cons (s : Step) (w : Walk) : effects (s :: w) = s.effect :: effects w := rfl

@[simp] theorem effects_nil : effects [] = [] := rfl

variable (w : Walk)

/-- The effects of a walk tell its offence. -/
theorem offence?_eq_effects : offence? w = (effects w).findSome? Effect.offence? := by
  rw [effects, List.findSome?_map]
  rfl

/-- The effects of the steps that are done. -/
theorem effects_done : effects (done w) = (effects w).takeWhile (·.offence?.isNone) := by
  rw [effects, effects, List.takeWhile_map]
  rfl

/-- They tell its units as well. -/
theorem units_eq_effects : units w = (effects w).filterMap Effect.unit? := by
  rw [units, sources, List.map_filterMap, effects, List.filterMap_map]
  rfl

/-- And its findings, so walks with the same effects do the same. -/
theorem findings_eq_effects : findings w = (effects w).filterMap Effect.finding? := by
  rw [findings, effects, List.filterMap_map]
  rfl

end Walk

/-- A run shows nothing of a walk but its effects. -/
theorem Flatten.Performs.of_effects {m : Flatten α} {v w : Walk} {value : Nat → α}
    (hm : m.Performs v value) (h : Walk.effects v = Walk.effects w) : m.Performs w value := by
  have done : Walk.effects (Walk.done v) = Walk.effects (Walk.done w) := by
    rw [Walk.effects_done, h, ← Walk.effects_done]
  intro p
  obtain ⟨log, run⟩ := hm p
  refine ⟨log, run.trans ?_⟩
  have after : p.after v log = p.after w log := by
    simp only [Progress.after, Walk.units_eq_effects, Walk.findings_eq_effects, done]
  have offence : Walk.offence? v = Walk.offence? w := by
    rw [Walk.offence?_eq_effects, h, ← Walk.offence?_eq_effects]
  rw [Walk.outcome, offence, after, ← Walk.outcome]

/-! ### Walks over aggregates that are alike -/

namespace Aggregate.Alike

variable {a b : Aggregate} {f : Field}

theorem fields_eq (h : a.Alike b) : a.fields = b.fields := by
  obtain ⟨fields, -, -, -⟩ := h
  exact fields

/-- A field of aggregates that are alike refers to declarations that are alike, or to none. -/
theorem target (h : a.Alike b) (hf : f ∈ a.fields) (n : String) :
    (Site.target? ⟨a, n, f⟩ = none ∧ Site.target? ⟨b, n, f⟩ = none) ∨
      ∃ d d', Site.target? ⟨a, n, f⟩ = some d ∧ Site.target? ⟨b, n, f⟩ = some d' ∧ d.Alike d' := by
  obtain ⟨-, -, length, referred⟩ := h
  by_cases nested : ∃ i, f.type = .nested i
  · obtain ⟨i, type⟩ := nested
    rw [Site.target?_of_nested type, Site.target?_of_nested type]
    rcases Nat.lt_or_ge i.toNat a.declarations.length with bound | beyond
    · have declared : a.nested? i = some _ := List.getElem?_eq_getElem bound
      have declared' : b.nested? i = some _ := List.getElem?_eq_getElem (length ▸ bound)
      exact .inr ⟨_, _, declared, declared', referred f hf i _ _ type declared declared'⟩
    · exact .inl ⟨List.getElem?_eq_none beyond, List.getElem?_eq_none (length ▸ beyond)⟩
  · have plain (c : Aggregate) : Site.target? ⟨c, n, f⟩ = none := by
      refine Option.eq_none_iff_forall_ne_some.2 fun d target ↦ nested ?_
      obtain ⟨i, type, -⟩ := Site.target?_eq_some_iff.1 target
      exact ⟨i, type⟩
    exact .inl ⟨plain a, plain b⟩

/-- A field offends for aggregates that are alike in the same way or not at all. -/
theorem offence?_eq (h : a.Alike b) (n : String) (f : Field) :
    Site.offence? ⟨a, n, f⟩ = Site.offence? ⟨b, n, f⟩ := by
  obtain ⟨-, -, length, -⟩ := h
  simp only [Site.offence?, Site.singleOffence?, Site.namingOffence?, length]

/-- Aggregates that are alike make the same unit. -/
theorem toUnit_eq (h : a.Alike b) (n : String) :
    (Source.aggregate a n).toUnit = (Source.aggregate b n).toUnit := by
  obtain ⟨fields, documentation, -, -⟩ := h
  rw [Source.toUnit, Aggregate.flat, fields, documentation]
  rfl

end Aggregate.Alike

/-- The walks over declarations that are alike have the same effects, step by step. -/
theorem Declaration.Alike.effects_steps {d d' : Declaration} (h : d.Alike d') (n : String) :
    Walk.effects (d.steps n) = Walk.effects (d'.steps n) := by
  induction d using Declaration.bodyInduction generalizing d' n with
  | enumeration e =>
    cases h with
    | @enumeration _ e' members documentation =>
      have unit : (Source.enumeration e n).toUnit = (Source.enumeration e' n).toUnit := by
        rw [Source.toUnit, Enumeration.flatten, members, documentation]
        rfl
      rw [steps_enumeration, steps_enumeration, Walk.effects_cons, Walk.effects_cons,
        Step.effect_finish_congr unit]
  | aggregate a ih =>
    cases h with
    | @aggregate _ b h =>
      have below (f : Field) (hf : f ∈ a.fields) : Walk.effects (Site.nestedSteps ⟨a, n, f⟩) =
          Walk.effects (Site.nestedSteps ⟨b, n, f⟩) := by
        rw [Site.nestedSteps, Site.nestedSteps]
        obtain ⟨target, target'⟩ | ⟨d, d', target, target', alike⟩ := h.target hf n
        · rw [target, target']
        · rw [target, target']
          exact ih d (Site.mem_of_target? target) alike _
      have field (f : Field) (hf : f ∈ a.fields) :
          Walk.effects (Site.steps ⟨a, n, f⟩) = Walk.effects (Site.steps ⟨b, n, f⟩) := by
        rw [Site.steps, Site.steps, Walk.effects_append, Walk.effects_append, Walk.effects_cons,
          Walk.effects_cons, below f hf, Step.effect_enter_congr (h.offence?_eq n f)]
        rfl
      have body : Walk.effects (a.bodySteps n) = Walk.effects (b.bodySteps n) := by
        rw [Aggregate.bodySteps, Aggregate.bodySteps, Walk.effects, Walk.effects,
          List.map_flatMap, List.map_flatMap, ← h.fields_eq]
        exact List.flatMap_congr field
      rw [steps_aggregate, steps_aggregate, Aggregate.steps_eq, Aggregate.steps_eq,
        Walk.effects_append, Walk.effects_append, body, Walk.effects_cons, Walk.effects_cons,
        Step.effect_finish_congr (h.toUnit_eq n)]

namespace Aggregate

variable {a b : Aggregate}

/-- Runs on aggregates that are alike have the same outcome, be it a position or an error, and add
the same units and findings, whatever was there before. -/
theorem register_agree_of_alike (h : a.Alike b) (n : String) (p : Progress) :
    Flatten.Agree ((a.register n).runFrom p) ((b.register n).runFrom p) := by
  have effects := (Declaration.Alike.aggregate h).effects_steps n
  rw [Declaration.steps_aggregate, Declaration.steps_aggregate] at effects
  exact ((a.performs_register n).of_effects effects).agree (b.performs_register n) p

/-- A structure in whose body another is declared, which has a bit-field of an enumeration from its
own body. To the last declaration there no field refers. -/
def panel (name mode : Option String) (kind : AggregateKind) (spare : Declaration) : Aggregate where
  name
  kind
  fields := [{ name := "screen", type := .nested 0 }]
  declarations :=
    [.aggregate
      { name
        kind
        fields := [{ name := "mode", type := .nested 0, bitWidth := some 2 }]
        declarations :=
          [.enumeration { name := mode, members := [{ name := "OFF", value := 0 }] }, spare] }]

/-- A declaration that cannot be flattened. -/
def dangling : Declaration :=
  .aggregate { fields := [{ name := "gone", type := .pointer (.nested 9) }] }

/-- Panels are alike. -/
theorem panel_alike (name name' mode mode' : Option String) (kind kind' : AggregateKind)
    (spare spare' : Declaration) :
    (panel name mode kind spare).Alike (panel name' mode' kind' spare') := by
  have only {f : Field} {g : Field} (hf : f ∈ [g]) {i : UInt64} (type : g.type = .nested 0)
      (h : f.type = .nested i) : i = 0 := by
    rw [List.mem_singleton.1 hf, type] at h
    exact (TypeRef.nested.inj h).symm
  refine .intro rfl rfl rfl fun f hf i d d' type declared declared' ↦ ?_
  obtain rfl := only hf rfl type
  obtain rfl := Option.some.inj declared
  obtain rfl := Option.some.inj declared'
  refine .aggregate (.intro rfl rfl rfl fun f hf i d d' type declared declared' ↦ ?_)
  obtain rfl := only hf rfl type
  obtain rfl := Option.some.inj declared
  obtain rfl := Option.some.inj declared'
  exact .enumeration rfl rfl

/-- Other names, another kind and a declaration that could not be flattened: no field refers to it,
and nothing differs in what is registered. -/
theorem register_agree_panel :
    (panel (some "Panel") (some "Mode") .struct (.enumeration {})).Alike
        (panel none none .union dangling) ∧
      (((panel none none .union dangling).register "P").runFrom oneUnit).1 = .ok 3 ∧
      Flatten.Agree
        (((panel (some "Panel") (some "Mode") .struct (.enumeration {})).register "P").runFrom
          oneUnit)
        (((panel none none .union dangling).register "P").runFrom oneUnit) := by
  have alike := panel_alike (some "Panel") none (some "Mode") none .struct .union (.enumeration {})
    dangling
  exact ⟨alike, rfl, register_agree_of_alike alike "P" oneUnit⟩

end Aggregate

end FlatDecls
