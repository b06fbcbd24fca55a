import FlatDecls.Proofs.Declaration.Binding
import FlatDecls.Proofs.Flattening.PostOrder
import FlatDecls.Proofs.Flattening.Warnings

/-!
# Source units alias by alias

What an alias adds depends on the alias and on the declarations, and on nothing that was added
before: a block of units if it is bound to an aggregate (`SourceUnit.block?`), and its findings
(`SourceUnit.aliasFindings`). A source unit in which nothing offends adds the blocks and the
findings of its aliases in order, to whatever is there (`SourceUnit.runFrom_flatten`).

So aliases in two parts are flattened one part after the other, source units in a row add what
each of them adds alone, and other orders of the aliases give the same blocks in that order
(`SourceUnit.flatten_homomorphism`).
-/

namespace FlatDecls

namespace Flatten

/-- Two runs with the same outcome, units and findings. Their logs may differ. -/
structure Agree (r s : Except FlattenError α × Progress) : Prop where
  outcome : r.1 = s.1
  register : r.2.register = s.2.register
  diagnostics : r.2.diagnostics = s.2.diagnostics

/-- Parts that perform the same walk and have the same value agree from any progress. -/
theorem Performs.agree {m m' : Flatten α} {w : Walk} {value : Nat → α} (h : m.Performs w value)
    (h' : m'.Performs w value) (p : Progress) : Agree (m.runFrom p) (m'.runFrom p) := by
  obtain ⟨log, run⟩ := h p
  obtain ⟨log', run'⟩ := h' p
  rw [run, run']
  exact ⟨rfl, rfl, rfl⟩

end Flatten

/-- Walks in a row have no offence if none of them has one. -/
theorem Walk.offence?_flatMap_eq_none_iff {walk : α → Walk} {xs : List α} :
    offence? (xs.flatMap walk) = none ↔ ∀ x ∈ xs, offence? (walk x) = none := by
  induction xs with
  | nil => simp
  | cons x xs ih => rw [List.flatMap_cons, offence?_append, Option.or_eq_none_iff, ih,
      List.forall_mem_cons]

namespace SourceUnit

variable (u : SourceUnit)

/-- The units for an alias, if it is bound to an aggregate. -/
def block? (x : Alias) : Option (List FlatUnit) :=
  (u.aliasedAggregate? x).map (·.postOrder x.name)

/-- The blocks of units, one for each alias that is bound to an aggregate. -/
def blocks : List (List FlatUnit) := u.aliases.filterMap u.block?

/-- The findings on an alias: the warnings about the aggregate that it is bound to, or a remark if
it stands for a name that no declaration has. -/
def aliasFindings (x : Alias) : List Diagnostic :=
  match u.aliasedAggregate? x, x.target with
  | some a, _ => a.warnings x.name
  | none, .type (.named target) =>
    if ∀ d ∈ u.declarations, d.name? ≠ some target then [.aliasSkipped x.name target] else []
  | none, _ => []

/-- The findings on each of the aliases. -/
def findingLists : List (List Diagnostic) := u.aliases.map u.aliasFindings

variable {u} {x : Alias} {a : Aggregate}

/-- For an alias that is bound to an aggregate there are the units of the aggregate. -/
theorem block?_of_boundTo (h : u.BoundTo x.target a) : u.block? x = some (a.postOrder x.name) := by
  rw [block?, aliasedAggregate?_eq_some_iff.2 h]
  rfl

/-- For any other alias there are none. -/
theorem block?_of_unbound (h : ∀ a, ¬ u.BoundTo x.target a) : u.block? x = none := by
  rw [block?, aliasedAggregate?_eq_none_iff.2 h]
  rfl

/-- On an alias that is bound to an aggregate there are the warnings about the aggregate. -/
theorem aliasFindings_of_boundTo (h : u.BoundTo x.target a) :
    u.aliasFindings x = a.warnings x.name := by
  rw [aliasFindings, aliasedAggregate?_eq_some_iff.2 h]

/-- An alias for an undeclared name is remarked on, and nothing else is found about it. -/
theorem aliasFindings_of_undeclared {name : String} (target : x.target = .type (.named name))
    (h : u.Undeclared name) : u.aliasFindings x = [.aliasSkipped x.name name] := by
  have unbound : u.aliasedAggregate? x = none := by
    rw [aliasedAggregate?_eq_none_iff, target]
    exact fun a bound ↦ bound.not_undeclared h
  rw [aliasFindings, unbound, target]
  exact if_pos h

/-- About an alias that is neither bound to an aggregate nor stands for an undeclared name nothing
is found. -/
theorem aliasFindings_of_unbound (unbound : ∀ a, ¬ u.BoundTo x.target a)
    (declared : ∀ name, x.target = .type (.named name) → ¬ u.Undeclared name) :
    u.aliasFindings x = [] := by
  rw [aliasFindings, aliasedAggregate?_eq_none_iff.2 unbound]
  split
  next none => cases none
  next name _ target => exact if_neg (declared name target)
  next => rfl

theorem aliasSteps_of_bound (h : u.aliasedAggregate? x = some a) :
    u.aliasSteps x = a.steps x.name := by
  rw [aliasSteps, h]

/-- The walk for an alias that is not bound to an aggregate is a remark or nothing. -/
theorem aliasSteps_of_unbound (h : u.aliasedAggregate? x = none) :
    u.aliasSteps x = [] ∨ ∃ target, u.aliasSteps x = [.skip x.name target] := by
  simp only [aliasSteps, h]
  split
  next target _ => cases u.declares target <;> simp
  next => exact .inl rfl

variable (u) (x)

/-- The walk for an alias finishes its block. -/
theorem units_aliasSteps : Walk.units (u.aliasSteps x) = (u.block? x).getD [] := by
  cases bound : u.aliasedAggregate? x with
  | some a => rw [aliasSteps_of_bound bound, a.units_steps, block?, bound]; rfl
  | none =>
    rw [block?, bound]
    rcases aliasSteps_of_unbound bound with steps | ⟨target, steps⟩ <;> rw [steps] <;> rfl

/-- The walk for an alias has the findings on it. -/
theorem findings_aliasSteps : Walk.findings (u.aliasSteps x) = u.aliasFindings x := by
  rw [aliasFindings]
  cases bound : u.aliasedAggregate? x with
  | some a => rw [aliasSteps_of_bound bound, a.findings_steps]
  | none =>
    rw [aliasSteps, bound]
    cases x.target with
    | aggregate a => rfl
    | type t =>
      cases t with
      | named target =>
        by_cases undeclared : ∀ d ∈ u.declarations, d.name? ≠ some target
        · simp only [declares_eq_false_iff.2 undeclared, if_pos undeclared]
          rfl
        · have declared : u.declares target = true := by
            rw [← Bool.not_eq_false, declares_eq_false_iff]
            exact undeclared
          simp only [declared, if_neg undeclared]
          rfl
      | _ => rfl

/-- The walk over a source unit finishes the blocks in order. -/
theorem units_steps : Walk.units u.steps = u.blocks.flatten := by
  rw [steps, Walk.units_flatMap, blocks]
  simp only [units_aliasSteps]
  induction u.aliases with
  | nil => rfl
  | cons x xs ih =>
    rw [List.flatMap_cons, List.filterMap_cons, ih]
    cases u.block? x <;> rfl

/-- The walk over a source unit has the findings on its aliases in order. -/
theorem findings_steps : Walk.findings u.steps = u.findingLists.flatten := by
  rw [steps, Walk.findings_flatMap, findingLists, ← List.flatMap_def]
  simp only [findings_aliasSteps]

/-- A run on a source unit succeeds if nothing offends. -/
theorem flatten_eq_ok_iff (p : Progress) :
    (u.flatten.runFrom p).1 = .ok () ↔ Walk.offence? u.steps = none := by
  rw [u.performs_flatten.runFrom_eq_ok_iff]
  exact and_iff_left rfl

/-- If nothing offends, the blocks and findings of the aliases are added, whatever is there. -/
theorem runFrom_flatten (clean : Walk.offence? u.steps = none) (p : Progress) :
    ∃ log, u.flatten.runFrom p =
      (.ok (),
        { register := ⟨p.register.units ++ u.blocks.flatten⟩
          diagnostics := ⟨p.diagnostics.entries ++ u.findingLists.flatten⟩
          events := log }) := by
  obtain ⟨log, run⟩ := u.performs_flatten p
  refine ⟨p.events ++ log, ?_⟩
  rw [run, Walk.outcome, clean, Progress.after, Walk.done_of_offence?_eq_none clean, units_steps,
    findings_steps]

variable {u} in
/-- A run from nothing that succeeds has the blocks and findings of the aliases, in order. -/
theorem eq_of_flatten_eq_ok {q : Progress} (h : u.flatten.runFrom {} = (.ok (), q)) :
    Walk.offence? u.steps = none ∧ q.register.units = u.blocks.flatten ∧
      q.diagnostics.entries = u.findingLists.flatten := by
  have clean : Walk.offence? u.steps = none := (u.flatten_eq_ok_iff {}).1 (by rw [h])
  obtain ⟨log, run⟩ := u.runFrom_flatten clean {}
  obtain ⟨-, rfl⟩ := Prod.mk.inj (h.symm.trans run)
  exact ⟨clean, rfl, rfl⟩

/-! ### Aliases in parts and in other orders -/

section

variable (declarations : List Declaration) {xs ys : List Alias}

/-- Aliases in two parts are flattened one part after the other. -/
theorem agree_flatten_append (xs ys : List Alias) (p : Progress) :
    Flatten.Agree ((flatten ⟨declarations, xs ++ ys⟩).runFrom p)
      (match (flatten ⟨declarations, xs⟩).runFrom p with
      | (.ok _, q) => (flatten ⟨declarations, ys⟩).runFrom q
      | (.error e, q) => (.error e, q)) := by
  have whole := performs_flatten ⟨declarations, xs ++ ys⟩
  have parts := (performs_flatten ⟨declarations, xs⟩).bind (f := fun _ ↦ flatten ⟨declarations, ys⟩)
    fun _ ↦ performs_flatten ⟨declarations, ys⟩
  -- the walk for an alias depends on the declarations only, so both perform the same walk
  have same : steps ⟨declarations, xs ++ ys⟩ =
      steps ⟨declarations, xs⟩ ++ steps ⟨declarations, ys⟩ := List.flatMap_append
  rw [same] at whole
  have agree := whole.agree parts p
  rw [Flatten.runFrom_bind] at agree
  rcases first : (flatten ⟨declarations, xs⟩).runFrom p with ⟨_ | _, q⟩
  all_goals
    rw [first] at agree
    exact agree

variable {declarations}

/-- Whether anything offends does not depend on the order of the aliases. -/
theorem offence?_steps_of_perm (h : xs.Perm ys)
    (clean : Walk.offence? (steps ⟨declarations, xs⟩) = none) :
    Walk.offence? (steps ⟨declarations, ys⟩) = none := by
  rw [steps, Walk.offence?_flatMap_eq_none_iff] at clean ⊢
  intro x hx
  exact clean x (h.mem_iff.2 hx)

/-- Other orders of the aliases give other orders of the blocks. -/
theorem blocks_perm (h : xs.Perm ys) :
    (blocks ⟨declarations, xs⟩).Perm (blocks ⟨declarations, ys⟩) :=
  h.filterMap _

theorem findingLists_perm (h : xs.Perm ys) :
    (findingLists ⟨declarations, xs⟩).Perm (findingLists ⟨declarations, ys⟩) :=
  h.map _

end

/-- Flattening takes aliases in parts to parts of a run, source units in a row to what each of them
adds to nothing, and a source unit to the blocks and findings of its aliases. A block ends with
the unit that bears the name of the alias. Other orders of the aliases succeed as well, with the
same blocks and findings in that order. -/
theorem flatten_homomorphism :
    (∀ declarations xs ys p,
      Flatten.Agree ((flatten ⟨declarations, xs ++ ys⟩).runFrom p)
        (match (flatten ⟨declarations, xs⟩).runFrom p with
        | (.ok _, q) => (flatten ⟨declarations, ys⟩).runFrom q
        | (.error e, q) => (.error e, q))) ∧
    (∀ (u v : SourceUnit) (q r : Progress), u.flatten.runFrom {} = (.ok (), q) →
      v.flatten.runFrom {} = (.ok (), r) → ∀ p : Progress, ∃ log : List Event,
        (do u.flatten; v.flatten : Flatten Unit).runFrom p =
          (.ok (),
            { register := ⟨p.register.units ++ q.register.units ++ r.register.units⟩
              diagnostics :=
                ⟨p.diagnostics.entries ++ q.diagnostics.entries ++ r.diagnostics.entries⟩
              events := log })) ∧
    (∀ (u : SourceUnit) (q : Progress), u.flatten.runFrom {} = (.ok (), q) →
      q.register.units = u.blocks.flatten ∧ q.diagnostics.entries = u.findingLists.flatten ∧
        ∀ x ∈ u.aliases,
          (∀ a, u.BoundTo x.target a →
            u.block? x = some (a.postOrder x.name) ∧
              ∃ before unit, a.postOrder x.name = before ++ [unit] ∧ unit.name = x.name) ∧
          ((∀ a, ¬ u.BoundTo x.target a) → u.block? x = none)) ∧
    ∀ declarations xs ys q, xs.Perm ys → (flatten ⟨declarations, xs⟩).runFrom {} = (.ok (), q) →
      (blocks ⟨declarations, xs⟩).Perm (blocks ⟨declarations, ys⟩) ∧
        (findingLists ⟨declarations, xs⟩).Perm (findingLists ⟨declarations, ys⟩) ∧
          ∃ r, (flatten ⟨declarations, ys⟩).runFrom {} = (.ok (), r) ∧
            r.register.units = (blocks ⟨declarations, ys⟩).flatten ∧
              r.diagnostics.entries = (findingLists ⟨declarations, ys⟩).flatten := by
  refine ⟨agree_flatten_append, fun u v q r hu hv p ↦ ?_, fun u q hu ↦ ?_,
    fun declarations xs ys q perm h ↦ ?_⟩
  · obtain ⟨clean, units, findings⟩ := eq_of_flatten_eq_ok hu
    obtain ⟨clean', units', findings'⟩ := eq_of_flatten_eq_ok hv
    obtain ⟨log, run⟩ := u.runFrom_flatten clean p
    obtain ⟨log', run'⟩ := v.runFrom_flatten clean'
      ⟨⟨p.register.units ++ u.blocks.flatten⟩,
        ⟨p.diagnostics.entries ++ u.findingLists.flatten⟩, log⟩
    refine ⟨log', ?_⟩
    rw [Flatten.runFrom_bind, run, units, findings, units', findings']
    exact run'
  · obtain ⟨-, units, findings⟩ := eq_of_flatten_eq_ok hu
    refine ⟨units, findings, fun x _ ↦ ⟨fun a bound ↦ ⟨block?_of_boundTo bound, ?_⟩,
      block?_of_unbound⟩⟩
    exact ⟨_, _, a.postOrder_eq x.name, rfl⟩
  · have clean := offence?_steps_of_perm perm (eq_of_flatten_eq_ok h).1
    obtain ⟨log, run⟩ := runFrom_flatten ⟨declarations, ys⟩ clean {}
    exact ⟨blocks_perm perm, findingLists_perm perm, _, run, rfl, rfl⟩

/-- A structure with a bit-field of an inner structure. -/
def nestedFlags : Aggregate where
  fields := [{ name := "a", type := .nested 0, bitWidth := some 3 }]
  declarations := [.aggregate { fields := [{ name := "x", type := .primitive .char }] }]

/-- A structure that bears a name. -/
def point : Aggregate where
  name := some "P"
  fields := [{ name := "x", type := .primitive .int }]

/-- An alias of a structure in place, one of a name that is announced before it is defined, and one
of neither. -/
def bothTargets : SourceUnit where
  declarations := [.aggregate { name := some "P" }, .aggregate point]
  aliases :=
    [{ name := "S", target := .aggregate nestedFlags },
      { name := "T", target := .type (.named "P") },
      { name := "I", target := .type (.primitive .int) }]

theorem flatten_bothTargets :
    let s : List FlatUnit :=
      [.struct { name := "S_a", fields := [{ name := "x", typeName := "char" }] },
        .struct { name := "S", fields := [{ name := "a", typeName := "S_a" }] }]
    let t : List FlatUnit :=
      [.struct { name := "T", fields := [{ name := "x", typeName := "int" }] }]
    ∃ p q r, bothTargets.flatten.runFrom {} = (.ok (), q) ∧ q.register.units = s ++ t ∧
      bothTargets.BoundTo (.aggregate nestedFlags) nestedFlags ∧
      bothTargets.block? ⟨"S", .aggregate nestedFlags⟩ = some s ∧
      bothTargets.BoundTo (.type (.named "P")) point ∧
      bothTargets.block? ⟨"T", .type (.named "P")⟩ = some t ∧
      (∀ a, ¬ bothTargets.BoundTo (.type (.primitive .int)) a) ∧
      bothTargets.block? ⟨"I", .type (.primitive .int)⟩ = none ∧
      (flatten ⟨bothTargets.declarations, bothTargets.aliases.reverse⟩).runFrom {} = (.ok (), r) ∧
      r.register.units = t ++ s ∧
      (do bothTargets.flatten; bothTargets.flatten : Flatten Unit).runFrom {} = (.ok (), p) ∧
      p.register.units = (s ++ t) ++ (s ++ t) := by
  intro s t
  obtain ⟨-, inARow, blocks, perm⟩ := flatten_homomorphism
  have run : bothTargets.flatten.runFrom {} = (.ok (), (bothTargets.flatten.runFrom {}).2) := rfl
  obtain ⟨units, -, each⟩ := blocks _ _ run
  obtain ⟨-, -, r, reversed, units', -⟩ :=
    perm _ _ _ _ (List.reverse_perm bothTargets.aliases).symm run
  obtain ⟨log, twice⟩ := inARow _ _ _ _ run run {}
  have inPlace : bothTargets.BoundTo (.aggregate nestedFlags) nestedFlags := .inPlace _
  have named : bothTargets.BoundTo (.type (.named "P")) point :=
    .defined (.later (by simp [Aggregate.HasBody]) (.here (by simp [point, Aggregate.HasBody])))
  have number (a : Aggregate) : ¬ bothTargets.BoundTo (.type (.primitive .int)) a := by
    intro bound
    cases bound
  have atS := (each ⟨"S", _⟩ List.mem_cons_self).1 _ inPlace
  have atT := (each ⟨"T", _⟩ (List.mem_cons_of_mem _ List.mem_cons_self)).1 _ named
  have atI := (each ⟨"I", .type (.primitive .int)⟩ (by simp [bothTargets])).2 number
  exact ⟨_, _, r, run, units, inPlace, atS.1, named, atT.1, number, atI, reversed, units', twice,
    rfl⟩

end SourceUnit

end FlatDecls
