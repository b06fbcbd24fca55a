import FlatDecls.Proofs.Flattening.Blocks
import FlatDecls.Proofs.Flattening.Offence
import FlatDecls.Proofs.Flattening.Session

/-!
# What a failed operation leaves behind

An operation that fails comes to a field that offends, at some address, behind aliases and fields
that are done (`Operation.ComesTo`). Nothing is taken back: what it leaves behind is what was
there, and then all that the done aliases and fields add, in order, and nothing else
(`Operation.failure_leaves_done_work`).

Up to the entering of fields, which adds nothing, the steps that a failed operation does are the
whole walks over what is done (`Operation.exists_stopsAt`). In a whole walk, an aggregate is
finished and a field left only with all of their own steps (`Walk.Whole`). So whatever is
registered or warned about is flattened completely.
-/

namespace FlatDecls

/-! ### Whole walks -/

namespace Walk

/-- What is left or finished in a walk has all its steps there. -/
structure Whole (w : Walk) : Prop where
  left : ∀ s : Site, .leave s ∈ w → s.steps ⊆ w
  finished : ∀ (b : Aggregate) (assigned : String), .finish (.aggregate b assigned) ∈ w →
    b.bodySteps assigned ⊆ w

namespace Whole

variable {v w : Walk}

theorem nil : Whole [] := ⟨nofun, nofun⟩

/-- Where both walks leave what they enter, the one behind the other does so too. -/
theorem append (hv : v.Whole) (hw : w.Whole) : (v ++ w).Whole where
  left s h := by
    rcases List.mem_append.1 h with h | h
    · exact List.subset_append_of_subset_left _ (hv.left s h)
    · exact List.subset_append_of_subset_right _ (hw.left s h)
  finished b assigned h := by
    rcases List.mem_append.1 h with h | h
    · exact List.subset_append_of_subset_left _ (hv.finished b assigned h)
    · exact List.subset_append_of_subset_right _ (hw.finished b assigned h)

/-- So do any number of walks in a row. -/
theorem flatMap {walk : α → Walk} {xs : List α} (h : ∀ x ∈ xs, (walk x).Whole) :
    Whole (xs.flatMap walk) := by
  induction xs with
  | nil => exact nil
  | cons x xs ih =>
    rw [List.flatMap_cons]
    exact (h x List.mem_cons_self).append (ih fun y hy ↦ h y (List.mem_cons_of_mem x hy))

/-- One more step keeps a walk whole if its own steps are there. -/
theorem concat (hw : w.Whole) {s : Step} (left : ∀ t, s = .leave t → t.steps ⊆ w ++ [s])
    (finished : ∀ b assigned, s = .finish (.aggregate b assigned) →
      b.bodySteps assigned ⊆ w ++ [s]) : (w ++ [s]).Whole where
  left t h := by
    rcases List.mem_append.1 h with h | h
    · exact List.subset_append_of_subset_left _ (hw.left t h)
    · exact left t (List.mem_singleton.1 h).symm
  finished b assigned h := by
    rcases List.mem_append.1 h with h | h
    · exact List.subset_append_of_subset_left _ (hw.finished b assigned h)
    · exact finished b assigned (List.mem_singleton.1 h).symm

end Whole

end Walk

/-- The walk over a field is whole if that over its target is. -/
theorem Site.whole_steps_of_target {s : Site}
    (h : ∀ d, s.target? = some d → ∀ n, (d.steps n).Whole) : s.steps.Whole := by
  have inner : s.nestedSteps.Whole := by
    rw [nestedSteps]
    cases target : s.target? with
    | none => exact .nil
    | some d => exact h d target s.nestedName
  have entered : Walk.Whole [.enter s] := Walk.Whole.nil.concat (by simp) (by simp)
  refine (entered.append inner).concat ?_ (by simp)
  rintro t ⟨⟩
  exact List.Subset.refl _

/-- The walk over a declaration is whole. -/
theorem Declaration.whole_steps (d : Declaration) (assigned : String) :
    (d.steps assigned).Whole := by
  induction d using Declaration.bodyInduction generalizing assigned with
  | enumeration e =>
    rw [steps_enumeration]
    exact Walk.Whole.nil.concat (by simp) (by simp)
  | aggregate a ih =>
    have body : (a.bodySteps assigned).Whole := .flatMap fun f _ ↦
      Site.whole_steps_of_target fun d target ↦ ih d (Site.mem_of_target? target)
    rw [steps_aggregate, Aggregate.steps_eq]
    refine body.concat (by simp) ?_
    rintro b n ⟨⟩
    exact List.subset_append_left _ _

/-- A field that is entered is left again when all went well. -/
theorem Site.whole_steps (s : Site) : s.steps.Whole :=
  whole_steps_of_target fun d _ ↦ d.whole_steps

/-- The walk of an alias enters and leaves the fields of its aggregate, or none at all. -/
theorem SourceUnit.whole_aliasSteps (u : SourceUnit) (x : Alias) : (u.aliasSteps x).Whole := by
  cases bound : u.aliasedAggregate? x with
  | some a =>
    rw [aliasSteps_of_bound bound, ← Declaration.steps_aggregate]
    exact (Declaration.aggregate a).whole_steps x.name
  | none =>
    rcases aliasSteps_of_unbound bound with steps | ⟨target, steps⟩ <;> rw [steps]
    · exact .nil
    · exact Walk.Whole.nil.concat (by simp) (by simp)

/-! ### Walks up to an offence -/

namespace Walk

/-- Walks in a row are done up to the first that has an offence, and in that one up to there. -/
theorem done_flatMap {walk : α → Walk} {xs : List α} {k : Nat} {x : α} {e : FlattenError}
    (hx : xs[k]? = some x) (he : offence? (walk x) = some e)
    (before : ∀ j < k, ∀ y, xs[j]? = some y → offence? (walk y) = none) :
    done (xs.flatMap walk) = (xs.take k).flatMap walk ++ done (walk x) := by
  induction xs generalizing k with
  | nil => simp at hx
  | cons y ys ih =>
    rw [List.flatMap_cons]
    cases k with
    | zero =>
      obtain rfl : y = x := by simpa using hx
      exact done_append_of_offence he
    | succ k =>
      have clean : offence? (walk y) = none := before 0 k.succ_pos y rfl
      have rest := ih (k := k) (by simpa using hx)
        fun j hj z hz ↦ before (j + 1) (by omega) z (by simpa using hz)
      rw [done_append_of_offence?_eq_none clean, rest, List.take_succ_cons, List.flatMap_cons,
        List.append_assoc]

/-- Walks before one at a position have no offence if those at earlier positions have none. -/
theorem offence?_eq_none_of_mem_take {walk : α → Walk} {xs : List α} {k : Nat}
    (before : ∀ j < k, ∀ y, xs[j]? = some y → offence? (walk y) = none) :
    ∀ y ∈ xs.take k, offence? (walk y) = none := by
  intro y hy
  obtain ⟨j, hj⟩ := List.getElem?_of_mem hy
  rw [List.getElem?_take] at hj
  split at hj
  next earlier => exact before j earlier y hj
  next => contradiction

/-- A part of a walk without an offence has none either. -/
theorem offence?_eq_none_of_subset {v w : Walk} (h : v ⊆ w) (clean : offence? w = none) :
    offence? v = none := by
  rw [offence?, List.findSome?_eq_none_iff] at clean ⊢
  intro step hs
  exact clean step (h hs)

/-- The steps of a walk that may add something: all but the entering of fields. -/
def visible (w : Walk) : Walk :=
  w.filter fun s ↦
    match s with
    | .enter _ => false
    | _ => true

variable (v w : Walk) (s : Site)

@[simp] theorem visible_enter_cons : visible (.enter s :: w) = visible w := rfl

/-- What is visible of two walks in a row is what is visible of each. -/
@[simp]
theorem visible_append : visible (v ++ w) = visible v ++ visible w := List.filter_append ..

/-- Entering a field has no effect on the units, so nothing is lost by leaving it out. -/
@[simp]
theorem sources_visible : sources (visible w) = sources w := by
  induction w with
  | nil => rfl
  | cons step w ih => cases step <;> simp_all [visible]

/-- Nor does it have an effect on the findings. -/
@[simp]
theorem findings_visible : findings (visible w) = findings w := by
  induction w with
  | nil => rfl
  | cons step w ih => cases step <;> simp_all [visible]

variable {v w s}

theorem leave_mem_visible_iff : .leave s ∈ visible w ↔ .leave s ∈ w := by
  simp [visible]

theorem finish_mem_visible_iff {source : Source} :
    .finish source ∈ visible w ↔ .finish source ∈ w := by
  simp [visible]

end Walk

namespace Site

variable {s : Site} {b : Aggregate} {e : FlattenError}

/-- Of a field that offends nothing is done. -/
theorem done_steps_of_offence (own : s.offence? = some e) : Walk.done s.steps = [] := by
  rw [steps, List.cons_append, Walk.done_cons, Step.offence?_enter, own]
  rfl

/-- A field is done up to the offence below it. -/
theorem done_steps_of_below (target : s.target? = some (.aggregate b))
    (inner : Walk.offence? (b.steps s.nestedName) = some e) :
    Walk.done s.steps = .enter s :: Walk.done (b.steps s.nestedName) := by
  have below : s.nestedSteps = b.steps s.nestedName := by
    rw [nestedSteps, target]
    exact Declaration.steps_aggregate b s.nestedName
  rw [steps, below, List.cons_append, Walk.done_cons, Step.offence?_enter,
    offence?_of_target? target, if_pos rfl, Walk.done_append_of_offence inner]

end Site

/-! ### Coming to a field -/

namespace Aggregate

/-- Coming to the field at an address, behind the fields that are done: at each level on the way
down, those before the field on the way. -/
inductive ComesTo : Aggregate → (assigned : String) → Address → (done : List Site) → Site → Prop
  | here {a : Aggregate} {assigned : String} {k : Nat} {f : Field}
      (field : a.fields[k]? = some f) :
      ComesTo a assigned [k] ((a.fields.take k).map (Site.mk a assigned)) ⟨a, assigned, f⟩
  | inside {a b : Aggregate} {assigned : String} {k : Nat} {f : Field} {i : UInt64}
      {address : Address} {done : List Site} {s : Site} (field : a.fields[k]? = some f)
      (type : f.type = .nested i) (declared : a.nested? i = some (.aggregate b))
      (rest : ComesTo b (assigned ++ "_" ++ f.name) address done s) :
      ComesTo a assigned (k :: address) ((a.fields.take k).map (Site.mk a assigned) ++ done) s

variable {a : Aggregate} {assigned : String} {address : Address} {done : List Site} {s : Site}
  {e : FlattenError}

/-- A field that a walk comes to stands in the aggregate, at the address of the walk. -/
theorem ComesTo.fieldAt (h : a.ComesTo assigned address done s) :
    a.FieldAt assigned address s := by
  induction h with
  | here field => exact .here field
  | inside field type declared _ ih => exact .inside field type declared ih

/-- Nothing offends at or below a field before the first offence. -/
theorem FirstOffence.clean_before {k : Nat} (h : a.FirstOffence assigned (k :: address) e) {j : Nat}
    (earlier : j < k) {f : Field} (field : a.fields[j]? = some f) :
    Walk.offence? (Site.steps ⟨a, assigned, f⟩) = none := by
  by_contra offends
  obtain ⟨e', he'⟩ := Option.ne_none_iff_exists'.1 offends
  have before : ∃ address' s', a.FieldAt assigned (j :: address') s' ∧ s'.offence? ≠ none := by
    rcases Site.offence?_steps_eq_some_iff.1 he' with own | ⟨b, target, inner⟩
    · exact ⟨[], _, .here field, by simp [own]⟩
    · obtain ⟨address', ⟨s', hs', own⟩, -⟩ := exists_firstOffence inner
      exact ⟨address', s', fieldAt_cons_iff.2 ⟨f, field, .inr ⟨b, target, hs'⟩⟩, by simp [own]⟩
  obtain ⟨address', s', hs', own⟩ := before
  have late := h.2 (j :: address') s' hs' own
  rw [Address.cons_atOrBefore_cons_iff] at late
  omega

/-- The first offence below a field is the first in the aggregate that the field refers to. -/
theorem FirstOffence.below {b : Aggregate} {k : Nat} {f : Field}
    (h : a.FirstOffence assigned (k :: address) e) (field : a.fields[k]? = some f)
    (target : Site.target? ⟨a, assigned, f⟩ = some (.aggregate b))
    (hs : b.FieldAt (f.nestedName assigned) address s) (own : s.offence? = some e) :
    b.FirstOffence (f.nestedName assigned) address e := by
  refine ⟨⟨s, hs, own⟩, fun address' s' hs' offends ↦ ?_⟩
  have outside : a.FieldAt assigned (k :: address') s' :=
    fieldAt_cons_iff.2 ⟨f, field, .inr ⟨b, target, hs'⟩⟩
  rcases Address.cons_atOrBefore_cons_iff.1 (h.2 _ s' outside offends) with less | ⟨-, later⟩
  · exact absurd less (Nat.lt_irrefl k)
  · exact later

/-- In the fields before that of the first offence there is none. -/
theorem FirstOffence.clean_take {k : Nat} (h : a.FirstOffence assigned (k :: address) e) :
    ∀ t ∈ (a.fields.take k).map (Site.mk a assigned), Walk.offence? t.steps = none :=
  List.forall_mem_map.2 <|
    Walk.offence?_eq_none_of_mem_take fun _ earlier _ field ↦ h.clean_before earlier field

/-- Up to the first offence the walk over an aggregate is done field by field. -/
theorem FirstOffence.done_steps {k : Nat} {f : Field}
    (h : a.FirstOffence assigned (k :: address) e) (field : a.fields[k]? = some f)
    (he : Walk.offence? (Site.steps ⟨a, assigned, f⟩) = some e) :
    Walk.done (a.steps assigned) =
      ((a.fields.take k).map (Site.mk a assigned)).flatMap Site.steps
        ++ Walk.done (Site.steps ⟨a, assigned, f⟩) := by
  have failed : Walk.offence? (a.bodySteps assigned) = some e := by
    rw [bodySteps, ← offence?_steps_eq]
    exact offence?_steps_eq_some_iff.2 ⟨_, h⟩
  rw [steps_eq, Walk.done_append_of_offence failed, bodySteps, List.flatMap_map]
  exact Walk.done_flatMap field he fun _ earlier _ field' ↦ h.clean_before earlier field'

/-- No field that a walk comes to offends before the first offence. -/
theorem FirstOffence.atOrBefore_of_comesTo (h : a.FirstOffence assigned address e)
    {address' : Address} {done' : List Site} {s' : Site}
    (reached : a.ComesTo assigned address' done' s') (offends : s'.offence? ≠ none) :
    address.AtOrBefore address' :=
  h.2 address' s' reached.fieldAt offends

/-- The first offence in an aggregate, behind fields in which there is none. Up to the entering of
fields, the steps before it are the whole walks over these fields. -/
structure StopsAt (a : Aggregate) (assigned : String) (e : FlattenError) (address : Address)
    (done : List Site) (s : Site) : Prop where
  reached : a.ComesTo assigned address done s
  offends : s.offence? = some e
  first : ∀ address' done' s', a.ComesTo assigned address' done' s' → s'.offence? ≠ none →
    address.AtOrBefore address'
  clean : ∀ t ∈ done, Walk.offence? t.steps = none
  steps : Walk.visible (Walk.done (a.steps assigned)) = Walk.visible (done.flatMap Site.steps)

/-- The least address with an offence is where the walk stops. The induction is on the offence; what
was done in front of it is collected on the way. -/
theorem FirstOffence.exists_stopsAt (h : a.FirstOffence assigned address e) :
    ∃ done s, a.StopsAt assigned e address done s := by
  induction address generalizing a assigned with
  | nil =>
    obtain ⟨s, hs, -⟩ := h.1
    exact absurd hs not_fieldAt_nil
  | cons k address ih =>
    obtain ⟨s, hs, own⟩ := h.1
    obtain ⟨f, field, place⟩ := fieldAt_cons_iff.1 hs
    have first : ∀ address' done' s', a.ComesTo assigned address' done' s' →
        s'.offence? ≠ none → Address.AtOrBefore (k :: address) address' :=
      fun _ _ _ ↦ h.atOrBefore_of_comesTo
    rcases place with ⟨rfl, rfl⟩ | ⟨b, target, rest⟩
    · refine ⟨_, _, .here field, own, first, h.clean_take, ?_⟩
      rw [h.done_steps field (Site.offence?_steps_eq_some_iff.2 (.inl own)),
        Site.done_steps_of_offence own, List.append_nil]
    · have below := h.below field target rest own
      have inner := offence?_steps_eq_some_iff.2 ⟨_, below⟩
      obtain ⟨done, t, stops⟩ := ih below
      obtain ⟨i, type, declared⟩ := Site.target?_eq_some_iff.1 target
      refine ⟨_, t, .inside field type declared stops.reached, stops.offends, first,
        List.forall_mem_append.2 ⟨h.clean_take, stops.clean⟩, ?_⟩
      rw [h.done_steps field (Site.offence?_steps_eq_some_iff.2 (.inr ⟨b, target, inner⟩)),
        Site.done_steps_of_below target inner, List.flatMap_append, Walk.visible_append,
        Walk.visible_append, Walk.visible_enter_cons]
      exact congrArg _ stops.steps

/-- A walk over an aggregate with an offence stops at the first. -/
theorem exists_stopsAt (h : Walk.offence? (a.steps assigned) = some e) :
    ∃ address done s, a.StopsAt assigned e address done s := by
  obtain ⟨address, first⟩ := exists_firstOffence h
  exact ⟨address, first.exists_stopsAt⟩

end Aggregate

/-! ### Operations that fail -/

/-- A part of an operation that is done as a whole: an alias, or a field with all that is below. -/
inductive Task
  | ofAlias (u : SourceUnit) (x : Alias)
  | ofField (s : Site)

namespace Task

/-- The units that a task adds. -/
def units : Task → List FlatUnit
  | ofAlias u x => (u.block? x).getD []
  | ofField s => s.postOrder

/-- The findings that a task adds. -/
def findings : Task → List Diagnostic
  | ofAlias u x => u.aliasFindings x
  | ofField s => s.warnings

/-- The walk of a task. -/
def walk : Task → Walk
  | ofAlias u x => u.aliasSteps x
  | ofField s => s.steps

/-- A finished task registers the units of its walk. -/
theorem units_walk (t : Task) : Walk.units t.walk = t.units := by
  cases t with
  | ofAlias u x => exact u.units_aliasSteps x
  | ofField s => exact s.units_steps

/-- A finished task makes the findings of its walk. -/
theorem findings_walk (t : Task) : Walk.findings t.walk = t.findings := by
  cases t with
  | ofAlias u x => exact u.findings_aliasSteps x
  | ofField s => exact s.findings_steps

/-- Every kind of task leaves the fields that it enters. -/
theorem whole_walk (t : Task) : t.walk.Whole := by
  cases t with
  | ofAlias u x => exact u.whole_aliasSteps x
  | ofField s => exact s.whole_steps

/-- For fields that are done, the walks of the tasks are those of the fields. -/
theorem flatMap_walk_ofField (done : List Site) :
    (done.map ofField).flatMap walk = done.flatMap Site.steps :=
  List.flatMap_map ..

end Task

namespace Operation

/-- Coming to the field at an address, behind the aliases and fields that are done. The address is
one in the aggregate; in a source unit it begins with the position of the alias, and from a single
field on it is one in the aggregate that the field refers to. -/
inductive ComesTo : Operation → Address → (done : List Task) → Site → Prop
  | register {a : Aggregate} {assigned : String} {address : Address} {done : List Site} {s : Site}
      (inside : a.ComesTo assigned address done s) :
      ComesTo (.register a assigned) address (done.map .ofField) s
  | flatten {a : Aggregate} {assigned : String} {address : Address} {done : List Site} {s : Site}
      (inside : a.ComesTo assigned address done s) :
      ComesTo (.flatten a assigned) address (done.map .ofField) s
  | here {a : Aggregate} {assigned : String} {f : Field} :
      ComesTo (.flattenField a assigned f) [] [] ⟨a, assigned, f⟩
  | below {a b : Aggregate} {assigned : String} {f : Field} {i : UInt64} {address : Address}
      {done : List Site} {s : Site} (type : f.type = .nested i)
      (declared : a.nested? i = some (.aggregate b))
      (inside : b.ComesTo (assigned ++ "_" ++ f.name) address done s) :
      ComesTo (.flattenField a assigned f) address (done.map .ofField) s
  | process {u : SourceUnit} {k : Nat} {x : Alias} {a : Aggregate} {address : Address}
      {done : List Site} {s : Site} (alias_at : u.aliases[k]? = some x)
      (bound : u.BoundTo x.target a) (inside : a.ComesTo x.name address done s) :
      ComesTo (.process u) (k :: address)
        ((u.aliases.take k).map (.ofAlias u) ++ done.map .ofField) s

/-- The first offence of an operation, behind aliases and fields in which there is none. Up to the
entering of fields, the steps before it are the whole walks over these aliases and fields. -/
structure StopsAt (o : Operation) (e : FlattenError) (address : Address) (done : List Task)
    (s : Site) : Prop where
  reached : o.ComesTo address done s
  offends : s.offence? = some e
  first : ∀ address' done' s', o.ComesTo address' done' s' → s'.offence? ≠ none →
    address.AtOrBefore address'
  clean : ∀ t ∈ done, Walk.offence? t.walk = none
  steps : Walk.visible (Walk.done o.walk) = Walk.visible (done.flatMap Task.walk)

variable {a : Aggregate} {assigned : String} {f : Field} {u : SourceUnit} {address : Address}
  {done : List Site} {s : Site} {e : FlattenError}

/-- Registering an aggregate stops where its body stops: its own unit would come last. -/
theorem stopsAt_register (h : a.StopsAt assigned e address done s) :
    (register a assigned).StopsAt e address (done.map .ofField) s where
  reached := .register h.reached
  offends := h.offends
  first := by
    rintro address' _ s' reached' offends
    cases reached' with
    | register inside => exact h.first _ _ s' inside offends
  clean := List.forall_mem_map.2 h.clean
  steps := by
    rw [Task.flatMap_walk_ofField]
    exact h.steps

/-- Flattening a body stops where the aggregate does, and nothing else is done there. -/
theorem stopsAt_flatten (h : a.StopsAt assigned e address done s)
    (body : Walk.offence? (a.bodySteps assigned) = some e) :
    (flatten a assigned).StopsAt e address (done.map .ofField) s where
  reached := .flatten h.reached
  offends := h.offends
  first := by
    rintro address' _ s' reached' offends
    cases reached' with
    | flatten inside => exact h.first _ _ s' inside offends
  clean := List.forall_mem_map.2 h.clean
  steps := by
    rw [Task.flatMap_walk_ofField, ← h.steps, Aggregate.steps_eq,
      Walk.done_append_of_offence body]
    rfl

/-- A field with an offence of its own stops the work before anything below it is done. -/
theorem stopsAt_here (own : Site.offence? ⟨a, assigned, f⟩ = some e) :
    (flattenField a assigned f).StopsAt e [] [] ⟨a, assigned, f⟩ where
  reached := .here
  offends := own
  first := fun _ _ _ _ _ ↦ Address.nil_atOrBefore _
  clean := nofun
  steps := by
    rw [walk, Site.done_steps_of_offence own]
    rfl

/-- Otherwise the work stops inside the declaration that the field leads to. -/
theorem stopsAt_below {b : Aggregate} (target : Site.target? ⟨a, assigned, f⟩ = some (.aggregate b))
    (inner : Walk.offence? (b.steps (f.nestedName assigned)) = some e)
    (h : b.StopsAt (f.nestedName assigned) e address done s) :
    (flattenField a assigned f).StopsAt e address (done.map .ofField) s := by
  obtain ⟨i, type, declared⟩ := Site.target?_eq_some_iff.1 target
  refine ⟨.below type declared h.reached, h.offends, fun address' _ s' reached' offends ↦ ?_,
    List.forall_mem_map.2 h.clean, ?_⟩
  · cases reached' with
    | here => exact absurd (Site.offence?_of_target? target) offends
    | below type' declared' inside =>
      obtain rfl : i = _ := TypeRef.nested.inj (type.symm.trans type')
      obtain rfl : b = _ :=
        Declaration.aggregate.inj (Option.some.inj (declared.symm.trans declared'))
      exact h.first _ _ s' inside offends
  · rw [Task.flatMap_walk_ofField, walk, Site.done_steps_of_below target inner,
      Walk.visible_enter_cons]
    exact h.steps

/-- In a whole source unit the aliases in front are done, and the work stops inside the first
aggregate that offends. -/
theorem stopsAt_process {k : Nat} {x : Alias} (alias_at : u.aliases[k]? = some x)
    (bound : u.aliasedAggregate? x = some a)
    (before : ∀ j < k, ∀ y, u.aliases[j]? = some y → Walk.offence? (u.aliasSteps y) = none)
    (inner : Walk.offence? (a.steps x.name) = some e) (h : a.StopsAt x.name e address done s) :
    (process u).StopsAt e (k :: address)
      ((u.aliases.take k).map (.ofAlias u) ++ done.map .ofField) s where
  reached := .process alias_at (SourceUnit.aliasedAggregate?_eq_some_iff.1 bound) h.reached
  offends := h.offends
  first := by
    rintro _ _ s' reached' offends
    cases reached' with
    | @process _ j y b address' done' _ alias_at' bound' inside =>
      have bound' := SourceUnit.aliasedAggregate?_eq_some_iff.2 bound'
      rw [Address.cons_atOrBefore_cons_iff]
      rcases Nat.lt_trichotomy k j with less | rfl | more
      · exact .inl less
      · obtain rfl : x = y := Option.some.inj (alias_at.symm.trans alias_at')
        obtain rfl : a = b := Option.some.inj (bound.symm.trans bound')
        exact .inr ⟨rfl, h.first _ _ s' inside offends⟩
      -- an alias before that of the first offence is clean
      · obtain ⟨e', own'⟩ := Option.ne_none_iff_exists'.1 offends
        have entered := Aggregate.enter_mem_steps_iff.2 ⟨address', inside.fieldAt⟩
        have dirty := Walk.offence?_ne_none_of_mem entered own'
        rw [← SourceUnit.aliasSteps_of_bound bound'] at dirty
        exact absurd (before j more y alias_at') dirty
  clean := List.forall_mem_append.2
    ⟨List.forall_mem_map.2 (Walk.offence?_eq_none_of_mem_take before),
      List.forall_mem_map.2 h.clean⟩
  steps := by
    have he : Walk.offence? (u.aliasSteps x) = some e :=
      (SourceUnit.aliasSteps_of_bound bound).symm ▸ inner
    have aliases : ((u.aliases.take k).map (Task.ofAlias u)).flatMap Task.walk =
        (u.aliases.take k).flatMap u.aliasSteps := List.flatMap_map ..
    rw [walk, SourceUnit.steps, Walk.done_flatMap alias_at he before,
      SourceUnit.aliasSteps_of_bound bound, List.flatMap_append, aliases,
      Task.flatMap_walk_ofField, Walk.visible_append, Walk.visible_append, h.steps]

/-- An operation with an offence stops at the first. -/
theorem exists_stopsAt (o : Operation) (h : Walk.offence? o.walk = some e) :
    ∃ address done s, o.StopsAt e address done s := by
  cases o with
  | register a assigned =>
    obtain ⟨address, done, s, stops⟩ := Aggregate.exists_stopsAt h
    exact ⟨address, _, s, stopsAt_register stops⟩
  | flatten a assigned =>
    obtain ⟨address, done, s, stops⟩ := Aggregate.exists_stopsAt (a.offence?_steps_eq.trans h)
    exact ⟨address, _, s, stopsAt_flatten stops h⟩
  | flattenField a assigned f =>
    rcases Site.offence?_steps_eq_some_iff.1 h with own | ⟨b, target, inner⟩
    · exact ⟨[], [], _, stopsAt_here own⟩
    · obtain ⟨address, done, s, stops⟩ := Aggregate.exists_stopsAt inner
      exact ⟨address, _, s, stopsAt_below target inner stops⟩
  | process u =>
    obtain ⟨k, x, alias_at, he, before⟩ := Walk.offence?_flatMap_eq_some_iff.1 h
    cases bound : u.aliasedAggregate? x with
    | none =>
      rcases SourceUnit.aliasSteps_of_unbound bound with steps | ⟨target, steps⟩ <;>
        simp [steps, Walk.offence?_cons] at he
    | some a =>
      rw [SourceUnit.aliasSteps_of_bound bound] at he
      obtain ⟨address, done, s, stops⟩ := Aggregate.exists_stopsAt he
      exact ⟨k :: address, _, s, stopsAt_process alias_at bound before he stops⟩

/-! ### What is left behind -/

/-- The steps that an operation does. -/
def trail (o : Operation) : Walk := Walk.done o.walk

/-- What an operation leaves behind, from the progress `p`, that stops at the field `s` behind the
aliases and fields `done`. -/
structure LeavesBehind (o : Operation) (p : Progress) (done : List Task) (s : Site) : Prop where
  /-- The units and findings before the operation keep their positions. -/
  kept : ∀ i : Nat,
    (∀ v, p.register.units[i]? = some v → (o.perform p).register.units[i]? = some v) ∧
      ∀ d, p.diagnostics.entries[i]? = some d → (o.perform p).diagnostics.entries[i]? = some d
  /-- The units that are added are those of what is done. -/
  units : (o.perform p).register.units = p.register.units ++ done.flatMap Task.units
  /-- The findings that are added are those on what is done. -/
  findings : (o.perform p).diagnostics.entries = p.diagnostics.entries ++ done.flatMap Task.findings
  /-- The added units and findings are those of the steps that the operation does. -/
  traced : done.flatMap Task.units = (Walk.sources o.trail).map Source.toUnit ∧
    done.flatMap Task.findings = Walk.findings o.trail
  /-- A registered aggregate has all its fields: flattening it succeeds, with the same result. -/
  complete : ∀ b assigned, .aggregate b assigned ∈ Walk.sources o.trail → ∀ q : Progress,
    ((b.flatten assigned).runFrom q).1 = .ok (b.flat assigned)
  /-- No aggregate is registered that has the field `s` in it, directly or further down. -/
  unregistered : ∀ b assigned address, b.FieldAt assigned address s →
    .aggregate b assigned ∉ Walk.sources o.trail
  /-- A field that is left, perhaps with a warning, is one that flattening succeeds for. -/
  unwarned : ∀ t : Site, .leave t ∈ o.trail → ∀ q : Progress,
    ((t.owner.flattenField t.assigned t.field).runFrom q).1 = .ok (t.field.flatFields t.assigned)

namespace StopsAt

variable {o : Operation} {done : List Task} (h : o.StopsAt e address done s)

include h

/-- What is left on the way to the first offence has no offence at or below it. -/
theorem clean_of_leave {t : Site} (left : .leave t ∈ o.trail) : Walk.offence? t.steps = none := by
  rw [trail, ← Walk.leave_mem_visible_iff, h.steps, Walk.leave_mem_visible_iff] at left
  obtain ⟨task, member, left⟩ := List.mem_flatMap.1 left
  exact Walk.offence?_eq_none_of_subset (task.whole_walk.left t left) (h.clean task member)

/-- What is finished on the way to the first offence has no offence in it. -/
theorem clean_of_finish {b : Aggregate} {n : String}
    (finished : .finish (.aggregate b n) ∈ o.trail) : Walk.offence? (b.bodySteps n) = none := by
  rw [trail, ← Walk.finish_mem_visible_iff, h.steps, Walk.finish_mem_visible_iff] at finished
  obtain ⟨task, member, finished⟩ := List.mem_flatMap.1 finished
  exact Walk.offence?_eq_none_of_subset (task.whole_walk.finished b n finished)
    (h.clean task member)

/-- The units of the steps that are done. -/
theorem units_trail : Walk.units o.trail = done.flatMap Task.units := by
  rw [trail, Walk.units, ← Walk.sources_visible, h.steps, Walk.sources_visible, ← Walk.units,
    Walk.units_flatMap]
  simp only [Task.units_walk]

/-- The findings of the steps that are done. -/
theorem findings_trail : Walk.findings o.trail = done.flatMap Task.findings := by
  rw [trail, ← Walk.findings_visible, h.steps, Walk.findings_visible, Walk.findings_flatMap]
  simp only [Task.findings_walk]

/-- The units behind the operation. -/
theorem units_perform (p : Progress) :
    (o.perform p).register.units = p.register.units ++ done.flatMap Task.units := by
  rw [← h.units_trail]
  exact o.performs_part.units_runFrom p

/-- The findings behind the operation. -/
theorem findings_perform (p : Progress) :
    (o.perform p).diagnostics.entries =
      p.diagnostics.entries ++ done.flatMap Task.findings := by
  rw [← h.findings_trail]
  exact o.performs_part.findings_runFrom p

/-- An operation that stops leaves the units and the findings of the tasks done, those below the
entered fields included, and nothing else. -/
theorem leavesBehind (p : Progress) : o.LeavesBehind p done s where
  kept i := by
    rw [h.units_perform, h.findings_perform]
    exact ⟨fun v hv ↦ List.getElem?_append_left (List.getElem?_eq_some_iff.1 hv).1 ▸ hv,
      fun d hd ↦ List.getElem?_append_left (List.getElem?_eq_some_iff.1 hd).1 ▸ hd⟩
  units := h.units_perform p
  findings := h.findings_perform p
  traced := ⟨h.units_trail.symm, h.findings_trail.symm⟩
  complete b n hb q := by
    have clean := h.clean_of_finish (Walk.mem_sources_iff.1 hb)
    exact ((b.performs_flatten n).runFrom_eq_ok_iff q).2 ⟨clean, rfl⟩
  unregistered b n address' hs hb := by
    have clean := h.clean_of_finish (Walk.mem_sources_iff.1 hb)
    have entered := Aggregate.enter_mem_steps_iff.2 ⟨address', hs⟩
    have dirty := Walk.offence?_ne_none_of_mem entered h.offends
    rw [Aggregate.offence?_steps_eq] at dirty
    exact dirty clean
  unwarned t left q := by
    have clean := h.clean_of_leave left
    exact ((t.owner.performs_flattenField t.assigned t.field).runFrom_eq_ok_iff q).2 ⟨clean, rfl⟩

end StopsAt

/-- An operation that fails comes to the first field that offends, in the order of addresses, and
fails with its offence. It leaves behind what was there, and then the units and findings of the
aliases and fields that are done before; what it has not completed is neither registered nor
warned about. -/
theorem failure_leaves_done_work (o : Operation) (p : Progress) (e : FlattenError)
    (failed : (o.part.runFrom p).1 = .error e) :
    ∃ (address : Address) (done : List Task) (s : Site),
      o.ComesTo address done s ∧ s.Offends e ∧
        (∀ address' done' s' e', o.ComesTo address' done' s' → s'.Offends e' →
          address.AtOrBefore address') ∧
        o.LeavesBehind p done s := by
  have offence := (o.performs_part.runFrom_eq_error_iff p).1 failed
  obtain ⟨address, done, s, stops⟩ := o.exists_stopsAt offence
  refine ⟨address, done, s, stops.reached, Site.offends_iff.2 stops.offends, ?_,
    stops.leavesBehind p⟩
  intro address' done' s' e' reached' offends'
  exact stops.first address' done' s' reached' (by simp [Site.offends_iff.1 offends'])

/-- The second alias fails two levels down, in a bit-field of a nested type, behind a nested
structure and a bit-field that are done. -/
def brokenFlags : SourceUnit where
  aliases :=
    [{ name := "First", target := .aggregate {} },
      { name := "Second"
        target := .aggregate
          { fields :=
              [{ name := "head", type := .nested 0 },
                { name := "flags", type := .nested 1, bitWidth := some 4 }]
            declarations :=
              [.aggregate {},
                .aggregate
                  { fields :=
                      [{ name := "on", type := .primitive .uint, bitWidth := some 1 },
                        { name := "next", type := .pointer (.nested 0) }] }] } }]

/-- The failure is that of the least field that offends, and the work of the finished alias and of
the nested structure in front of the field stays. -/
theorem failure_of_brokenFlags :
    ((process brokenFlags).part.runFrom Aggregate.oneUnit).1 =
        .error (.unnamedType "Second_flags" "next" ⟨0⟩) ∧
      ∃ (address : Address) (done : List Task) (s : Site),
        (process brokenFlags).ComesTo address done s ∧
          s.Offends (.unnamedType "Second_flags" "next" ⟨0⟩) ∧
            (∀ address' done' s' e', (process brokenFlags).ComesTo address' done' s' →
              s'.Offends e' → address.AtOrBefore address') ∧
            (process brokenFlags).LeavesBehind Aggregate.oneUnit done s :=
  ⟨rfl, failure_leaves_done_work (process brokenFlags) Aggregate.oneUnit _ rfl⟩

end Operation

end FlatDecls
