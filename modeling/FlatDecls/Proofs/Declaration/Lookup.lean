import FlatDecls.Proofs.DeniedWarnings

/-!
# Which declarations matter

A compilation asks the top-level declarations two things, and only about a name that an alias
stands for directly: which aggregate is its definition, and whether the name is declared at all.
The types of fields are never looked up. Both answers are found among the declarations that bear
the name, in their order, and a declaration without a body does not change them next to one with
a body.

So edits of the declarations that keep the answers about the names of the aliases keep the whole
compilation (`SourceUnit.compile_congr`), and `SourceUnit.compile_ignores_irrelevant_declarations`
lists such edits.
-/

namespace FlatDecls

/-- The declarations that bear a name, in order. -/
def Declaration.bearing (name : String) (ds : List Declaration) : List Declaration :=
  ds.filter (·.name? == some name)

/-- No alias stands for the name of the declaration, if it has one. -/
def Declaration.Unnamed (d : Declaration) (aliases : List Alias) : Prop :=
  ∀ x ∈ aliases, ∀ name, d.name? = some name → x.target ≠ .type (.named name)

namespace SourceUnit

/-- Two units give the same answers about a name. -/
structure AnswerAlike (u v : SourceUnit) (name : String) : Prop where
  definition : u.findAggregate? name = v.findAggregate? name
  declared : u.declares name = v.declares name

/-! ### Answers about a name -/

/-- The aggregates of a name are among the declarations that bear it. -/
theorem aggregatesNamed_eq (u : SourceUnit) (name : String) :
    u.aggregatesNamed name =
      (Declaration.bearing name u.declarations).filterMap Declaration.aggregate? := by
  rw [aggregatesNamed, Declaration.bearing, List.filter_filterMap, List.filterMap_filter]
  congr 1
  funext d
  cases d with
  | aggregate a =>
    show (some a).filter (·.name == some name) = if a.name == some name then some a else none
    rw [Option.filter_some]
  | enumeration e => exact (ite_self none).symm

/-- A name is declared if some declaration bears it. -/
theorem declares_eq (u : SourceUnit) (name : String) :
    u.declares name = !(Declaration.bearing name u.declarations).isEmpty := by
  rw [declares, Declaration.bearing, Bool.eq_iff_iff]
  simp

section

variable {ds es pre post : List Declaration} {xs : List Alias} {name : String}

/-- Only the declarations that bear a name say anything about it. -/
theorem answerAlike_of_bearing
    (same : Declaration.bearing name ds = Declaration.bearing name es) :
    AnswerAlike ⟨ds, xs⟩ ⟨es, xs⟩ name where
  definition := by
    simp only [findAggregate?, aggregatesNamed_eq, same]
  declared := by
    simp only [declares_eq, same]

/-- A declaration of another name, or without one, says nothing about a name. -/
theorem answerAlike_of_name?_ne {d : Declaration} (other : d.name? ≠ some name) :
    AnswerAlike ⟨pre ++ d :: post, xs⟩ ⟨pre ++ post, xs⟩ name := by
  apply answerAlike_of_bearing
  simp [Declaration.bearing, other]

/-- The first aggregate with a body is found as well with one more that has none, and then it does
not matter which aggregate comes first. -/
theorem find?_hasBody_insert {a b : Aggregate} {as bs : List Aggregate} (bare : a.hasBody = false)
    (hb : b ∈ as ++ bs) (body : b.hasBody = true) :
    ((as ++ a :: bs).find? (·.hasBody)).or (as ++ a :: bs).head? =
      ((as ++ bs).find? (·.hasBody)).or (as ++ bs).head? := by
  have same : (as ++ a :: bs).find? (·.hasBody) = (as ++ bs).find? (·.hasBody) := by
    simp [List.find?_append, bare]
  rw [same]
  cases found : (as ++ bs).find? (·.hasBody) with
  | some c => rfl
  | none => simpa [body] using List.find?_eq_none.1 found b hb

/-- An aggregate without a body says nothing new about a name that one with a body bears. -/
theorem answerAlike_of_hasBody {a b : Aggregate} (named : b.name = some name)
    (bare : a.hasBody = false) (hb : .aggregate b ∈ pre ++ post) (body : b.hasBody = true) :
    AnswerAlike ⟨pre ++ .aggregate a :: post, xs⟩ ⟨pre ++ post, xs⟩ name := by
  by_cases other : a.name = some name
  case neg => exact answerAlike_of_name?_ne other
  have bears : b ∈ (Declaration.bearing name (pre ++ post)).filterMap Declaration.aggregate? :=
    List.mem_filterMap.2 ⟨_, List.mem_filter.2 ⟨hb, by simp [Declaration.name?, named]⟩, rfl⟩
  constructor
  case definition =>
    simp only [findAggregate?, aggregatesNamed_eq]
    rw [Declaration.bearing, List.filter_append, List.filterMap_append] at bears ⊢
    rw [Declaration.bearing, List.filter_append, List.filterMap_append, List.filter_cons_of_pos
      (by simp [Declaration.name?, other])]
    exact find?_hasBody_insert bare bears body
  case declared =>
    have declared : ∀ ds : List Declaration, .aggregate b ∈ ds → declares ⟨ds, xs⟩ name = true := by
      intro ds h
      exact List.any_eq_true.2 ⟨_, h, by simp [Declaration.name?, named]⟩
    rw [declared _ hb, declared]
    rw [List.mem_append] at hb ⊢
    exact hb.imp_right (List.mem_cons_of_mem _)

end

/-! ### Edits of the declarations -/

/-- A compilation depends on the walk over the source unit only. -/
theorem compile_of_steps {u v : SourceUnit} (same : u.steps = v.steps) (denyWarnings : Bool) :
    u.compile denyWarnings = v.compile denyWarnings := by
  have allowed : u.compile false = v.compile false := by
    rw [compile_false, compile_false, same, compilation, compilation, sources, sources, same]
  cases denyWarnings with
  | false => exact allowed
  | true => rw [compile_true, compile_true, allowed]

/-- Declarations that answer alike about every name that an alias stands for give the same
compilation. -/
theorem compile_congr {ds es : List Declaration} {xs : List Alias}
    (alike : ∀ x ∈ xs, ∀ name, x.target = .type (.named name) →
      AnswerAlike ⟨ds, xs⟩ ⟨es, xs⟩ name) (denyWarnings : Bool) :
    compile ⟨ds, xs⟩ denyWarnings = compile ⟨es, xs⟩ denyWarnings := by
  apply compile_of_steps
  show xs.flatMap (aliasSteps ⟨ds, xs⟩) = xs.flatMap (aliasSteps ⟨es, xs⟩)
  apply List.flatMap_congr
  intro x hx
  -- the walk over an aggregate does not ask the declarations again
  rw [aliasSteps, aliasSteps, aliasedAggregate?, aliasedAggregate?]
  cases target : x.target with
  | aggregate a => rfl
  | type t =>
    cases t with
    | named name =>
      have same := alike x hx name target
      simp only [same.definition, same.declared]
    | _ => rfl

/-- These edits of the top-level declarations change nothing in a compilation, whether it succeeds
or not. An aggregate without a body may come or go while one of its name has a body. A declaration
may come, go or be another one if no alias stands for its name, before and after, whatever fields
mention it. The declarations may stand in another order that keeps the order of those which bear
the same name. -/
theorem compile_ignores_irrelevant_declarations :
    (∀ (pre post : List Declaration) (xs : List Alias) (a b : Aggregate) (name : String),
      a.name = some name → a.hasBody = false → .aggregate b ∈ pre ++ post → b.name = some name →
        b.hasBody = true → ∀ denyWarnings,
          compile ⟨pre ++ .aggregate a :: post, xs⟩ denyWarnings =
            compile ⟨pre ++ post, xs⟩ denyWarnings) ∧
    (∀ (pre post : List Declaration) (xs : List Alias) (d : Declaration), d.Unnamed xs →
      ∀ denyWarnings,
        compile ⟨pre ++ d :: post, xs⟩ denyWarnings = compile ⟨pre ++ post, xs⟩ denyWarnings ∧
        ∀ e : Declaration, e.Unnamed xs →
          compile ⟨pre ++ d :: post, xs⟩ denyWarnings =
            compile ⟨pre ++ e :: post, xs⟩ denyWarnings) ∧
    ∀ (ds es : List Declaration) (xs : List Alias), ds.Perm es →
      (∀ name, Declaration.bearing name ds = Declaration.bearing name es) →
        ∀ denyWarnings, compile ⟨ds, xs⟩ denyWarnings = compile ⟨es, xs⟩ denyWarnings := by
  have unnamed (pre post : List Declaration) (xs : List Alias) (d : Declaration)
      (h : d.Unnamed xs) (denyWarnings : Bool) :
      compile ⟨pre ++ d :: post, xs⟩ denyWarnings = compile ⟨pre ++ post, xs⟩ denyWarnings :=
    compile_congr (fun x hx name target ↦ answerAlike_of_name?_ne
      fun named ↦ h x hx name named target) denyWarnings
  refine ⟨fun pre post xs a b name ha bare hb named body denyWarnings ↦ ?_,
    fun pre post xs d hd denyWarnings ↦ ⟨unnamed pre post xs d hd denyWarnings, fun e he ↦ ?_⟩,
    fun ds es xs _ same denyWarnings ↦ ?_⟩
  · apply compile_congr
    intro x _ looked_up _
    by_cases other : looked_up = name
    · exact other ▸ answerAlike_of_hasBody named bare hb body
    · apply answerAlike_of_name?_ne
      rw [Declaration.name?, ha]
      exact fun h ↦ other (Option.some.inj h).symm
  · rw [unnamed pre post xs d hd, unnamed pre post xs e he]
  · exact compile_congr (fun x _ name _ ↦ answerAlike_of_bearing (same name)) denyWarnings

/-- An alias stands for `X`, which is announced, mentioned in a field, defined, and shared with an
enumeration. -/
def announced : SourceUnit where
  declarations :=
    [.aggregate { name := some "X" },
      .aggregate { name := some "Y", fields := [{ name := "x", type := .named "X" }] },
      .aggregate { name := some "X", fields := [{ name := "v", type := .primitive .int }] },
      .enumeration { name := some "X" }]
  aliases := [{ name := "T", target := .type (.named "X") }]

/-- The announcement of `X` may go, the structure that mentions it may go or be anonymous, and it
may stand in front. -/
theorem compile_announced :
    announced.compile true =
        compile ⟨announced.declarations.drop 1, announced.aliases⟩ true ∧
      announced.compile true =
        compile ⟨announced.declarations.take 1 ++ announced.declarations.drop 2,
          announced.aliases⟩ true ∧
      announced.compile true =
        compile ⟨announced.declarations.take 1 ++ .aggregate {} :: announced.declarations.drop 2,
          announced.aliases⟩ true ∧
      announced.compile true =
        compile ⟨announced.declarations[1] :: announced.declarations[0] ::
          announced.declarations.drop 2, announced.aliases⟩ true := by
  have mentions : announced.declarations[1].Unnamed announced.aliases := by
    simp [announced, Declaration.Unnamed, Declaration.name?]
  have anonymous : (Declaration.aggregate {}).Unnamed announced.aliases := by
    simp [Declaration.Unnamed, Declaration.name?]
  have ⟨bare, unnamed, order⟩ := compile_ignores_irrelevant_declarations
  refine ⟨bare [] _ _ _ { name := some "X", fields := [{ name := "v", type := .primitive .int }] }
      "X" rfl rfl ?_ rfl rfl true,
    (unnamed (announced.declarations.take 1) _ _ _ mentions true).1,
    (unnamed (announced.declarations.take 1) _ _ _ mentions true).2 _ anonymous,
    order _ _ _ (.swap _ _ _) (fun name ↦ ?_) true⟩
  · exact List.mem_cons_of_mem _ List.mem_cons_self
  · -- at most one of the two bears the name
    by_cases x : name = "X"
    · subst x
      rfl
    · simp [Declaration.bearing, List.filter_cons, Declaration.name?, Ne.symm x]

end SourceUnit

end FlatDecls
