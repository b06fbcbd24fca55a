import FlatDecls.Declaration.Lookup

/-!
# What an alias is bound to

An alias of an aggregate is bound to it, and an alias of a name to the aggregate that the top-level
declarations give the name: the first of that name with a body, or the first of that name where
none has a body (`SourceUnit.BoundTo`). Aliases of other types are bound to nothing. The lookup
finds exactly what an alias is bound to (`SourceUnit.aliasedAggregate?_eq_some_iff`).
-/

namespace FlatDecls

/-- The aggregate has a field or an inner declaration. -/
def Aggregate.HasBody (a : Aggregate) : Prop := a.fields ≠ [] ∨ a.declarations ≠ []

theorem Aggregate.hasBody_iff {a : Aggregate} : a.hasBody = true ↔ a.HasBody := by
  simp [hasBody, HasBody]

/-- The first aggregate with a property among some declarations. -/
inductive Declaration.First (P : Aggregate → Prop) : List Declaration → Aggregate → Prop
  | here {a : Aggregate} {ds : List Declaration} (holds : P a) : First P (.aggregate a :: ds) a
  | later {d : Declaration} {ds : List Declaration} {a : Aggregate}
      (other : ∀ b, d = .aggregate b → ¬ P b) (first : First P ds a) : First P (d :: ds) a

theorem Declaration.First.mem {P : Aggregate → Prop} {ds : List Declaration} {a : Aggregate}
    (h : First P ds a) : .aggregate a ∈ ds ∧ P a := by
  induction h with
  | here holds => exact ⟨List.mem_cons_self, holds⟩
  | later _ _ ih => exact ⟨List.mem_cons_of_mem _ ih.1, ih.2⟩

/-- Searching the aggregates of some declarations finds the first one. -/
theorem Declaration.find?_eq_some_iff {P : Aggregate → Prop} {p : Aggregate → Bool}
    (decides : ∀ a, p a = true ↔ P a) {ds : List Declaration} {a : Aggregate} :
    (ds.filterMap aggregate?).find? p = some a ↔ First P ds a := by
  induction ds with
  | nil =>
    refine ⟨fun h ↦ ?_, fun h ↦ ?_⟩
    · cases h
    · cases h
  | cons d ds ih =>
    cases d with
    | enumeration e =>
      rw [List.filterMap_cons_none rfl, ih]
      refine ⟨.later (by simp), fun h ↦ ?_⟩
      cases h with
      | later _ first => exact first
    | aggregate b =>
      show (b :: ds.filterMap aggregate?).find? p = some a ↔ _
      rw [List.find?_cons]
      cases holds : p b with
      | true =>
        have here : P b := (decides b).1 holds
        refine ⟨fun h ↦ Option.some.inj h ▸ .here here, fun h ↦ ?_⟩
        cases h with
        | here => rfl
        | later other _ => exact absurd here (other b rfl)
      | false =>
        have other : ¬ P b := by rw [← decides, holds]; exact Bool.false_ne_true
        rw [ih]
        refine ⟨.later (by simpa using other), fun h ↦ ?_⟩
        cases h with
        | here here => exact absurd here other
        | later _ first => exact first

namespace SourceUnit

/-- The target of an alias is bound to an aggregate: the one written in place, the first of the name
with a body, or the first of the name if none has a body. -/
inductive BoundTo (u : SourceUnit) : AliasTarget → Aggregate → Prop
  | inPlace (a : Aggregate) : u.BoundTo (.aggregate a) a
  | defined {name : String} {a : Aggregate}
      (first : Declaration.First (fun b ↦ b.name = some name ∧ b.HasBody) u.declarations a) :
      u.BoundTo (.type (.named name)) a
  | announced {name : String} {a : Aggregate}
      (bare : ∀ b, .aggregate b ∈ u.declarations → b.name = some name → ¬ b.HasBody)
      (first : Declaration.First (·.name = some name) u.declarations a) :
      u.BoundTo (.type (.named name)) a

/-- No declaration bears the name. -/
def Undeclared (u : SourceUnit) (name : String) : Prop :=
  ∀ d ∈ u.declarations, d.name? ≠ some name

variable {u : SourceUnit} {x : Alias} {a : Aggregate} {name : String}

theorem declares_eq_false_iff : u.declares name = false ↔ u.Undeclared name := by
  simp [declares, Undeclared]

/-- The definition of a name is what an alias of the name is bound to. -/
theorem findAggregate?_eq_some_iff :
    u.findAggregate? name = some a ↔ u.BoundTo (.type (.named name)) a := by
  have defined : (u.aggregatesNamed name).find? (·.hasBody) = some a ↔
      Declaration.First (fun b ↦ b.name = some name ∧ b.HasBody) u.declarations a := by
    rw [aggregatesNamed, List.find?_filter]
    exact Declaration.find?_eq_some_iff fun b ↦ by simp [Aggregate.hasBody_iff]
  have announced : (u.aggregatesNamed name).head? = some a ↔
      Declaration.First (·.name = some name) u.declarations a := by
    rw [aggregatesNamed, List.head?_filter]
    exact Declaration.find?_eq_some_iff fun b ↦ by simp
  have bare : (u.aggregatesNamed name).find? (·.hasBody) = none ↔
      ∀ b, .aggregate b ∈ u.declarations → b.name = some name → ¬ b.HasBody := by
    have aggregates (b : Aggregate) :
        b ∈ u.declarations.filterMap Declaration.aggregate? ↔ .aggregate b ∈ u.declarations := by
      rw [List.mem_filterMap]
      constructor
      · rintro ⟨d, hd, same⟩
        cases d with
        | aggregate c => exact Option.some.inj same ▸ hd
        | enumeration e => cases same
      · exact fun hb ↦ ⟨_, hb, rfl⟩
    simp only [List.find?_eq_none, aggregatesNamed, List.mem_filter, aggregates, beq_iff_eq,
      Aggregate.hasBody_iff, and_imp]
  rw [findAggregate?, Option.or_eq_some_iff, defined, announced, bare]
  constructor
  · rintro (first | ⟨bare, first⟩)
    · exact .defined first
    · exact .announced bare first
  · intro bound
    cases bound with
    | defined first => exact .inl first
    | announced bare first => exact .inr ⟨bare, first⟩

/-- The lookup for an alias finds what its target is bound to. -/
theorem aliasedAggregate?_eq_some_iff :
    u.aliasedAggregate? x = some a ↔ u.BoundTo x.target a := by
  rw [aliasedAggregate?]
  cases x.target with
  | aggregate b =>
    refine ⟨fun h ↦ Option.some.inj h ▸ .inPlace b, fun bound ↦ ?_⟩
    cases bound
    rfl
  | type t =>
    cases t with
    | named name => exact findAggregate?_eq_some_iff
    | _ =>
      refine ⟨fun h ↦ ?_, fun bound ↦ ?_⟩
      · cases h
      · cases bound

/-- An alias is bound to nothing exactly if the lookup finds nothing. -/
theorem aliasedAggregate?_eq_none_iff :
    u.aliasedAggregate? x = none ↔ ∀ a, ¬ u.BoundTo x.target a := by
  simp only [Option.eq_none_iff_forall_ne_some, ne_eq, aliasedAggregate?_eq_some_iff]

/-- A name that is bound to an aggregate is declared. -/
theorem BoundTo.not_undeclared (h : u.BoundTo (.type (.named name)) a) : ¬ u.Undeclared name := by
  obtain ⟨mem, named⟩ : .aggregate a ∈ u.declarations ∧ a.name = some name := by
    cases h with
    | defined first => exact ⟨first.mem.1, first.mem.2.1⟩
    | announced _ first => exact first.mem
  exact fun undeclared ↦ undeclared _ mem named

end SourceUnit

end FlatDecls
