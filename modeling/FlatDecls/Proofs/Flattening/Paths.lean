import Mathlib.Data.List.Nodup
import FlatDecls.Proofs.Flat.ForwardReference
import FlatDecls.Proofs.Flattening.PostOrder

/-!
# Paths of nested fields

A declaration is reached from an aggregate along a *path*: a nested field, one in the declaration
that the first refers to, and so on. Flattening adds one unit for each path, and its name is the
assigned name with the names on the path behind it, underscores between them. So two units bear
the same name exactly if the names on their paths are joined to the same text
(`Aggregate.register_unit_per_path`).

That can happen: `a_b` joins to the same text as `a` and `b`. It cannot happen where the names of
nested fields contain no underscore and are distinct in each aggregate. The text then gives back
the names, and these the positions.
-/

namespace FlatDecls

/-- The unit of a declaration under an assigned name. -/
def Declaration.toUnit : Declaration → (assigned : String) → FlatUnit
  | aggregate a, assigned => .struct (a.flat assigned)
  | enumeration e, assigned => .enum (e.flatten assigned)

@[simp]
theorem Declaration.name_toUnit (d : Declaration) (assigned : String) :
    (d.toUnit assigned).name = assigned := by
  cases d <;> rfl

/-! ### Occurrences -/

/-- A declaration with the path to it: the positions and the names of the fields on the way. -/
structure Occurrence where
  address : Address
  names : List String
  declaration : Declaration

namespace Occurrence

/-- The occurrence below the field `name` at position `k`. -/
def below (k : Nat) (name : String) (p : Occurrence) : Occurrence :=
  ⟨k :: p.address, name :: p.names, p.declaration⟩

/-- The name that it gets below an aggregate with an assigned name. -/
def assigned (p : Occurrence) (n : String) : String := "_".intercalate (n :: p.names)

/-- The names on the path, joined: each of them stands behind an underscore, so an empty name is not
the same as none. -/
def join (p : Occurrence) : String := p.assigned ""

/-- The unit that it becomes. -/
def unit (p : Occurrence) (n : String) : FlatUnit := p.declaration.toUnit (p.assigned n)

variable (p q : Occurrence) (n : String)

/-- It is named after the aggregate, and the join of its path stands behind that name. -/
theorem assigned_eq : p.assigned n = n ++ p.join := by
  rw [join, assigned, assigned]
  cases p.names with
  | nil => simp
  | cons name names => simp [String.intercalate_cons_cons, String.append_assoc]

/-- A step down belongs to the assigned name. -/
theorem assigned_below (k : Nat) (name : String) :
    (p.below k name).assigned n = p.assigned (n ++ "_" ++ name) := by
  rw [assigned, assigned, below, String.intercalate_cons_cons]
  cases p.names with
  | nil => simp
  | cons next names => simp [String.intercalate_cons_cons, String.append_assoc]

/-- The unit of an occurrence further down has the names on the way joined in front. -/
theorem unit_below (k : Nat) (name : String) :
    (p.below k name).unit n = p.unit (n ++ "_" ++ name) := by
  rw [unit, unit, assigned_below]
  rfl

@[simp]
theorem name_unit : (p.unit n).name = p.assigned n := p.declaration.name_toUnit _

/-- Two occurrences get the same name exactly if their paths are joined to the same text. -/
theorem assigned_inj : p.assigned n = q.assigned n ↔ p.join = q.join := by
  rw [assigned_eq, assigned_eq, String.append_right_inj]

variable {p q}

/-- Two joins are the same exactly if the names with underscores between them are, and both paths
have names or neither has. -/
theorem join_eq_iff :
    p.join = q.join ↔
      (p.names = [] ↔ q.names = []) ∧ "_".intercalate p.names = "_".intercalate q.names := by
  have longer (name : String) (names : List String) :
      "_".intercalate ("" :: name :: names) = "_" ++ "_".intercalate (name :: names) := by
    rw [String.intercalate_cons_cons, String.empty_append]
  rw [join, join, assigned, assigned]
  cases p.names with
  | nil =>
    cases q.names with
    | nil => simp
    | cons name names =>
      rw [longer]
      simp [← String.toList_inj]
  | cons name names =>
    cases q.names with
    | nil =>
      rw [longer]
      simp [← String.toList_inj]
    | cons name' names' =>
      rw [longer, longer, String.append_right_inj]
      simp

/-- Names without underscores can be read back from their join. -/
theorem names_eq_of_join (hp : ∀ name ∈ p.names, '_' ∉ name.toList)
    (hq : ∀ name ∈ q.names, '_' ∉ name.toList) (h : p.join = q.join) : p.names = q.names := by
  have split {r : Occurrence} (hr : ∀ name ∈ r.names, '_' ∉ name.toList) :
      r.join.toList.splitOn '_' = [] :: r.names.map String.toList := by
    rw [join, assigned, String.toList_intercalate]
    refine List.splitOn_intercalate '_' ?_ (List.cons_ne_nil _ _)
    simpa using hr
  have same : p.names.map String.toList = q.names.map String.toList :=
    (List.cons.inj ((split hp).symm.trans (h ▸ split hq))).2
  exact List.map_injective_iff.2 (fun _ _ ↦ String.toList_inj.1) same

/-- With an underscore in a name, different paths may have the same join. -/
example (d : Declaration) :
    join ⟨[0], ["a_b"], d⟩ = join ⟨[1, 0], ["a", "b"], d⟩ := rfl

end Occurrence

mutual

/-- The occurrences below an aggregate in post-order, the aggregate itself last. -/
def Aggregate.occurrences : Aggregate → List Occurrence
  | ⟨name, kind, fields, declarations, documentation⟩ =>
    let inner := Declaration.occurrenceLists declarations
    let nested := fields.zipIdx.flatMap fun (f, k) ↦
      match f.type with
      | .nested i => (inner[i.toNat]?).elim [] (·.map (·.below k f.name))
      | _ => []
    nested ++ [⟨[], [], .aggregate ⟨name, kind, fields, declarations, documentation⟩⟩]

/-- The occurrences below a declaration in post-order, the declaration itself last. -/
def Declaration.occurrences : Declaration → List Occurrence
  | .aggregate a => a.occurrences
  | .enumeration e => [⟨[], [], .enumeration e⟩]

/-- The occurrences below each declaration of a list. -/
def Declaration.occurrenceLists : List Declaration → List (List Occurrence)
  | [] => []
  | d :: ds => d.occurrences :: Declaration.occurrenceLists ds

end

/-- The list that the mutual recursion builds is that of the declarations' occurrences. -/
theorem Declaration.occurrenceLists_eq_map (ds : List Declaration) :
    Declaration.occurrenceLists ds = ds.map Declaration.occurrences := by
  induction ds with
  | nil => rfl
  | cons d ds ih => rw [Declaration.occurrenceLists, ih, List.map_cons]

/-- The occurrences below the field at position `k` of its owner. -/
def Site.occurrences (s : Site) (k : Nat) : List Occurrence :=
  match s.target? with
  | some d => d.occurrences.map (·.below k s.field.name)
  | none => []

/-- What occurs below a field occurs in its target. -/
theorem Site.mem_occurrences_iff {s : Site} {k : Nat} {p : Occurrence} :
    p ∈ s.occurrences k ↔
      ∃ d, s.target? = some d ∧ ∃ q ∈ d.occurrences, q.below k s.field.name = p := by
  rw [occurrences]
  cases s.target? <;> simp

/-- The occurrences below an aggregate: those below its fields, in order, and then itself. The
assigned name does not matter. -/
theorem Aggregate.occurrences_eq (a : Aggregate) (n : String) :
    a.occurrences = (a.fields.zipIdx.flatMap fun x ↦ Site.occurrences ⟨a, n, x.1⟩ x.2)
      ++ [⟨[], [], .aggregate a⟩] := by
  have contributes (f : Field) (k : Nat) : Site.occurrences ⟨a, n, f⟩ k =
      match f.type with
      | .nested i =>
        ((Declaration.occurrenceLists a.declarations)[i.toNat]?).elim [] (·.map (·.below k f.name))
      | _ => [] := by
    rw [Site.occurrences, Site.target?, Declaration.occurrenceLists_eq_map]
    cases f.type with
    | nested i =>
      simp only [List.getElem?_map, Aggregate.nested?]
      cases a.declarations[i.toNat]? <;> rfl
    | _ => rfl
  obtain ⟨name, kind, fields, declarations, documentation⟩ := a
  rw [Aggregate.occurrences]
  simp only [contributes]

@[simp]
theorem Declaration.occurrences_aggregate (a : Aggregate) :
    (Declaration.aggregate a).occurrences = a.occurrences := by
  rw [Declaration.occurrences]

/-- An enumeration has no fields that lead on, so it occurs alone. -/
@[simp]
theorem Declaration.occurrences_enumeration (e : Enumeration) :
    (Declaration.enumeration e).occurrences = [⟨[], [], .enumeration e⟩] := by
  rw [Declaration.occurrences]

/-- The units of a declaration are those of the occurrences below it, in order. -/
theorem Declaration.postOrder_eq_map_occurrences (d : Declaration) (n : String) :
    d.postOrder n = d.occurrences.map (·.unit n) := by
  induction d using Declaration.bodyInduction generalizing n with
  | enumeration e =>
    rw [Declaration.postOrder, occurrences_enumeration]
    simp [Occurrence.unit, Occurrence.assigned, toUnit, Enumeration.flatten]
  | aggregate a ih =>
    have field (f : Field) (k : Nat) :
        (Site.occurrences ⟨a, n, f⟩ k).map (·.unit n) = Site.postOrder ⟨a, n, f⟩ := by
      rw [Site.occurrences, Site.postOrder]
      cases target : Site.target? ⟨a, n, f⟩ with
      | none => rfl
      | some d =>
        simp only [List.map_map, Function.comp_def, Occurrence.unit_below]
        exact (ih d (Site.mem_of_target? target) _).symm
    have fields := List.flatMap_map Prod.fst (fun f ↦ Site.postOrder ⟨a, n, f⟩) a.fields.zipIdx
    rw [List.zipIdx_map_fst] at fields
    have own : (Occurrence.unit ⟨[], [], .aggregate a⟩ n) = .struct (a.flat n) := by
      rw [Occurrence.unit, Occurrence.assigned, String.intercalate_singleton, toUnit]
    rw [Declaration.postOrder, Aggregate.postOrder_eq, occurrences_aggregate, a.occurrences_eq n,
      List.map_append, List.map_flatMap, List.map_singleton, own, fields]
    simp only [field]

/-- The units in post-order are those of the occurrences, so there is one for each path. -/
theorem Aggregate.postOrder_eq_map_occurrences (a : Aggregate) (n : String) :
    a.postOrder n = a.occurrences.map (·.unit n) := by
  rw [← Declaration.occurrences_aggregate, ← Declaration.postOrder_eq_map_occurrences,
    Declaration.postOrder]

/-- Two occurrences below a declaration have different addresses. -/
theorem Declaration.nodup_address_occurrences (d : Declaration) :
    (d.occurrences.map Occurrence.address).Nodup := by
  induction d using Declaration.bodyInduction with
  | enumeration e => simp
  | aggregate a ih =>
    -- below the field at position `k` all addresses begin with `k`, so blocks have none in common
    have heads {x : Field × Nat} {address : Address}
        (h : address ∈ (Site.occurrences ⟨a, "", x.1⟩ x.2).map Occurrence.address) :
        address.head? = some x.2 := by
      obtain ⟨p, hp, rfl⟩ := List.mem_map.1 h
      obtain ⟨d, -, q, -, rfl⟩ := Site.mem_occurrences_iff.1 hp
      rfl
    have block (x : Field × Nat) :
        ((Site.occurrences ⟨a, "", x.1⟩ x.2).map Occurrence.address).Nodup := by
      rw [Site.occurrences]
      cases target : Site.target? ⟨a, "", x.1⟩ with
      | none => exact List.nodup_nil
      | some d =>
        have inner := ih d (Site.mem_of_target? target)
        rw [List.map_map]
        rw [← List.nodup_map_iff (List.cons_injective (a := x.2)), List.map_map] at inner
        exact inner
    have positions : a.fields.zipIdx.Pairwise fun x y ↦ x.2 ≠ y.2 := by
      rw [← List.pairwise_map (f := Prod.snd) (R := (· ≠ ·)), List.zipIdx_map_snd]
      exact List.nodup_range'
    rw [occurrences_aggregate, a.occurrences_eq "", List.map_append, List.map_flatMap]
    refine List.nodup_append'.2 ⟨List.nodup_flatMap.2 ⟨fun x _ ↦ block x, ?_⟩, ?_, ?_⟩
    · refine positions.imp fun {x y} other address hx hy ↦ other ?_
      exact Option.some.inj ((heads hx).symm.trans (heads hy))
    · exact List.nodup_singleton _
    · intro address hx hy
      obtain ⟨x, -, hx⟩ := List.mem_flatMap.1 hx
      have head := heads hx
      rw [List.mem_singleton.1 hy] at head
      cases head

/-! ### Paths -/

namespace Declaration

/-- The second declaration is reached from the first by nested fields at these positions and of
these names, each of them a field of the aggregate to which the one before refers. -/
inductive PathTo : Declaration → Address → (names : List String) → Declaration → Prop
  | here (d : Declaration) : PathTo d [] [] d
  | inside {a : Aggregate} {k : Nat} {f : Field} {i : UInt64} {d t : Declaration}
      {address : Address} {names : List String} (field : a.fields[k]? = some f)
      (type : f.type = .nested i) (declared : a.nested? i = some d)
      (rest : PathTo d address names t) :
      PathTo (.aggregate a) (k :: address) (f.name :: names) t

variable {d t : Declaration} {a : Aggregate} {address : Address} {names : List String}

/-- The occurrences below a declaration are the ends of the paths from it. -/
theorem mem_occurrences_iff {p : Occurrence} :
    p ∈ d.occurrences ↔ d.PathTo p.address p.names p.declaration := by
  induction d using Declaration.bodyInduction generalizing p with
  | enumeration e =>
    obtain ⟨address, names, t⟩ := p
    rw [occurrences_enumeration, List.mem_singleton, Occurrence.mk.injEq]
    constructor
    · rintro ⟨rfl, rfl, rfl⟩
      exact .here _
    · rintro ⟨⟩
      exact ⟨rfl, rfl, rfl⟩
  | aggregate a ih =>
    rw [occurrences_aggregate, a.occurrences_eq "", List.mem_append, List.mem_singleton,
      List.mem_flatMap]
    constructor
    · rintro (⟨⟨f, k⟩, field, below⟩ | rfl)
      · obtain ⟨d, target, q, hq, rfl⟩ := Site.mem_occurrences_iff.1 below
        obtain ⟨i, type, declared⟩ := Site.target?_eq_some_iff.1 target
        have rest := (ih d (Site.mem_of_target? target)).1 hq
        exact .inside (List.mem_zipIdx_iff_getElem?.1 field) type declared rest
      · exact .here _
    · obtain ⟨address, names, t⟩ := p
      rintro (_ | @⟨_, k, f, i, d, _, address, names, field, type, declared, rest⟩)
      · exact .inr rfl
      · have target : Site.target? ⟨a, "", f⟩ = some d :=
          Site.target?_eq_some_iff.2 ⟨i, type, declared⟩
        have below : (⟨address, names, t⟩ : Occurrence) ∈ d.occurrences :=
          (ih d (Site.mem_of_target? target)).2 rest
        refine .inl ⟨(f, k), List.mem_zipIdx_iff_getElem?.2 field, ?_⟩
        exact Site.mem_occurrences_iff.2 ⟨d, target, _, below, rfl⟩

/-- A path can be continued by a nested field of the aggregate at its end. -/
theorem PathTo.snoc {b : Aggregate} {k : Nat} {f : Field} {i : UInt64}
    (h : d.PathTo address names (.aggregate b)) (field : b.fields[k]? = some f)
    (type : f.type = .nested i) (declared : b.nested? i = some t) :
    d.PathTo (address ++ [k]) (names ++ [f.name]) t := by
  generalize hb : Declaration.aggregate b = e at h
  induction h with
  | here d =>
    subst hb
    exact .inside field type declared (.here t)
  | inside field' type' declared' rest ih => exact .inside field' type' declared' (ih hb)

/-- A field of the aggregate at the end of a path has an address, and its owner is named after the
path. -/
theorem PathTo.fieldAt {b : Aggregate} {k : Nat} {f : Field}
    (h : (aggregate a).PathTo address names (.aggregate b)) (field : b.fields[k]? = some f)
    (n : String) : a.FieldAt n (address ++ [k]) ⟨b, "_".intercalate (n :: names), f⟩ := by
  generalize hd : Declaration.aggregate a = d at h
  generalize hb : Declaration.aggregate b = e at h
  induction h generalizing a n with
  | here d =>
    subst hd
    obtain rfl := Declaration.aggregate.inj hb
    rw [String.intercalate_singleton]
    exact .here field
  | @inside a' k' f' i d t address names field' type' declared' rest ih =>
    obtain rfl := Declaration.aggregate.inj hd
    -- the field lies below an aggregate, since no field lies below an enumeration
    cases d with
    | enumeration e =>
      cases rest
      cases hb
    | aggregate c =>
      have below := Occurrence.assigned_below ⟨address, names, t⟩ n k' f'.name
      simp only [Occurrence.assigned, Occurrence.below] at below
      rw [below]
      exact .inside field' type' declared' (ih _ rfl hb)

end Declaration

/-! ### Names without clashes -/

/-- The fields of nested type. -/
def Aggregate.nestedFields (a : Aggregate) : List Field :=
  a.fields.filter fun f ↦ f.type matches .nested _

theorem Aggregate.mem_nestedFields_of_getElem? {a : Aggregate} {k : Nat} {f : Field} {i : UInt64}
    (field : a.fields[k]? = some f) (type : f.type = .nested i) : f ∈ a.nestedFields := by
  refine List.mem_filter.2 ⟨List.mem_of_getElem? field, ?_⟩
  rw [type]

/-- The names of the nested fields are distinct, and there is no underscore in them. -/
structure Aggregate.NestedNamesApart (a : Aggregate) : Prop where
  distinct : (a.nestedFields.map Field.name).Nodup
  noUnderscore : ∀ f ∈ a.nestedFields, '_' ∉ f.name.toList

/-- Nested fields of one name stand at one position. -/
theorem Aggregate.NestedNamesApart.position_eq {a : Aggregate} (h : a.NestedNamesApart) {j k : Nat}
    {f g : Field} {i i' : UInt64} (hf : a.fields[j]? = some f) (hg : a.fields[k]? = some g)
    (type : f.type = .nested i) (type' : g.type = .nested i') (same : f.name = g.name) : j = k := by
  have apart := h.distinct
  rw [nestedFields, List.Nodup, List.pairwise_map, List.pairwise_filter,
    List.pairwise_iff_getElem] at apart
  obtain ⟨hj, rfl⟩ := List.getElem?_eq_some_iff.1 hf
  obtain ⟨hk, rfl⟩ := List.getElem?_eq_some_iff.1 hg
  rcases Nat.lt_trichotomy j k with lt | eq | gt
  · exact absurd same (apart j k hj hk lt (by rw [type]) (by rw [type']))
  · exact eq
  · exact absurd same.symm (apart k j hk hj gt (by rw [type']) (by rw [type]))

namespace Declaration

/-- In each aggregate that is reached from a declaration, the names of the nested fields are
distinct and without underscores. -/
def NestedNamesApart (d : Declaration) : Prop :=
  ∀ address names b, d.PathTo address names (.aggregate b) → b.NestedNamesApart

variable {d t t' : Declaration} {x y : Address} {names : List String}

/-- Names that are apart throughout a tree are apart below every field. -/
theorem NestedNamesApart.of_field {a : Aggregate} {k : Nat} {f : Field} {i : UInt64}
    (h : (aggregate a).NestedNamesApart) (field : a.fields[k]? = some f) (type : f.type = .nested i)
    (declared : a.nested? i = some d) : d.NestedNamesApart :=
  fun _ _ b rest ↦ h _ _ b (.inside field type declared rest)

/-- It is enough that the names are such in all aggregates that are declared, reached or not. -/
theorem nestedNamesApart_aggregate {a : Aggregate} (own : a.NestedNamesApart)
    (body : ∀ d ∈ a.declarations, d.NestedNamesApart) : (aggregate a).NestedNamesApart := by
  intro address names b path
  cases path with
  | here => exact own
  | inside field type declared rest =>
    exact body _ (List.mem_of_getElem? declared) _ _ b rest

theorem nestedNamesApart_enumeration (e : Enumeration) : (enumeration e).NestedNamesApart := by
  intro address names b path
  cases path

/-- The names on a path then have no underscore. -/
theorem PathTo.noUnderscore (path : d.PathTo x names t) (h : d.NestedNamesApart) :
    ∀ name ∈ names, '_' ∉ name.toList := by
  induction path with
  | here d => exact List.forall_mem_nil _
  | @inside a k f i d t x names field type declared rest ih =>
    have own := (h _ _ a (.here _)).noUnderscore f
      (Aggregate.mem_nestedFields_of_getElem? field type)
    exact List.forall_mem_cons.2 ⟨own, ih (h.of_field field type declared)⟩

/-- And they say where the path goes. -/
theorem PathTo.address_eq (path : d.PathTo x names t) (h : d.NestedNamesApart)
    (path' : d.PathTo y names t') : x = y := by
  induction path generalizing y with
  | here d =>
    cases path' with
    | here => rfl
  | @inside a k f i d t x names field type declared rest ih =>
    generalize hn : f.name :: names = names' at path'
    cases path' with
    | here => cases hn
    | @inside _ k' f' i' d' _ y names' field' type' declared' rest' =>
      obtain ⟨same, rfl⟩ := List.cons.inj hn
      obtain rfl := (h _ _ a (.here _)).position_eq field field' type type' same
      obtain rfl := Option.some.inj (field.symm.trans field')
      obtain rfl := TypeRef.nested.inj (type.symm.trans type')
      obtain rfl := Option.some.inj (declared.symm.trans declared')
      rw [ih (h.of_field field type declared) rest']

/-- Two occurrences then never get the same name. -/
theorem NestedNamesApart.nodup_assigned (h : d.NestedNamesApart) (n : String) :
    (d.occurrences.map (·.assigned n)).Nodup := by
  have apart := d.nodup_address_occurrences
  rw [List.Nodup, List.pairwise_map] at apart ⊢
  refine apart.imp_of_mem fun {p q} hp hq other same ↦ other ?_
  have path := mem_occurrences_iff.1 hp
  have path' := mem_occurrences_iff.1 hq
  have names := Occurrence.names_eq_of_join (path.noUnderscore h) (path'.noUnderscore h)
    ((Occurrence.assigned_inj p q n).1 same)
  rw [← names] at path'
  exact path.address_eq h path'

end Declaration

namespace Register

variable {r : Register} {i j : Nat} {u v : FlatUnit}

/-- Where all names are distinct, a name says the position of its unit. -/
theorem position_eq_of_nodup (h : r.names.Nodup) (hu : r.units[i]? = some u)
    (hv : r.units[j]? = some v) (same : u.name = v.name) : i = j := by
  obtain ⟨hi, rfl⟩ := List.getElem?_eq_some_iff.1 hu
  obtain ⟨hj, rfl⟩ := List.getElem?_eq_some_iff.1 hv
  have hi' : i < r.names.length := by simpa [names] using hi
  have hj' : j < r.names.length := by simpa [names] using hj
  have bears : r.names[i] = r.names[j] := by simpa [names] using same
  exact h.getElem_inj_iff.1 bears

/-- Then the first position of the name of a unit is that of the unit. -/
theorem firstPosition?_of_nodup (h : r.names.Nodup) (hu : r.units[j]? = some u) :
    r.firstPosition? u.name = some j := by
  obtain ⟨t, -, first⟩ := exists_firstPosition?_le hu
  obtain ⟨⟨v, hv, same⟩, -⟩ := firstPosition?_eq_some_iff.1 first
  rw [first, position_eq_of_nodup h hv hu same]

end Register

namespace Aggregate

/-- A register with one unit for each path of nested fields from an aggregate, in the order of the
occurrences. A unit is named after its path, and units share a name exactly if their paths are
joined to the same text. -/
structure UnitPerPath (a : Aggregate) (n : String) (r : Register) : Prop where
  paths : ∀ p : Occurrence, p ∈ a.occurrences ↔
    (Declaration.aggregate a).PathTo p.address p.names p.declaration
  once : (a.occurrences.map Occurrence.address).Nodup
  units : r.units = a.occurrences.map (·.unit n)
  named : r.names = a.occurrences.map fun p ↦ "_".intercalate (n :: p.names)
  clash : ∀ (i j : Nat) (p q : Occurrence) (u v : FlatUnit), a.occurrences[i]? = some p →
    a.occurrences[j]? = some q → r.units[i]? = some u → r.units[j]? = some v →
      (u.name = v.name ↔ p.join = q.join)
  joins : ∀ p q : Occurrence, p.join = q.join ↔
    (p.names = [] ↔ q.names = []) ∧ "_".intercalate p.names = "_".intercalate q.names

/-- The nested field `f`, at position `k` of the aggregate that occurs as `p`, becomes one flat
field, and exactly one unit bears the name of its type: that of the declaration `d` below it. -/
structure FoundAt (a : Aggregate) (n : String) (r : Register) (p : Occurrence) (k : Nat) (f : Field)
    (d : Declaration) (position : Nat) : Prop where
  field : f.flatFields (p.assigned n) = [⟨f.name, f.nestedName (p.assigned n), f.documentation⟩]
  occurrence : a.occurrences[position]? = some ⟨p.address ++ [k], p.names ++ [f.name], d⟩
  unit : r.units[position]? = some (d.toUnit (f.nestedName (p.assigned n)))
  first : r.firstPosition? (f.nestedName (p.assigned n)) = some position
  only : ∀ (j : Nat) (u : FlatUnit), r.units[j]? = some u →
    u.name = f.nestedName (p.assigned n) → j = position

variable {a : Aggregate} {n : String} {r : Register}

/-- Units that are those of the occurrences belong to the paths one by one. -/
theorem unitPerPath (units : r.units = a.occurrences.map (·.unit n)) : a.UnitPerPath n r where
  paths p := by rw [← Declaration.mem_occurrences_iff, Declaration.occurrences_aggregate]
  once := by
    rw [← Declaration.occurrences_aggregate]
    exact Declaration.nodup_address_occurrences _
  units := units
  named := by
    rw [Register.names, units, List.map_map]
    exact List.map_congr_left fun p _ ↦ p.name_unit n
  clash i j p q u v hp hq hu hv := by
    rw [units, List.getElem?_map, hp, Option.map_some, Option.some.injEq] at hu
    rw [units, List.getElem?_map, hq, Option.map_some, Option.some.injEq] at hv
    rw [← hu, ← hv, Occurrence.name_unit, Occurrence.name_unit, Occurrence.assigned_inj]
  joins _ _ := Occurrence.join_eq_iff

/-- The path to the target of a nested field is that to its owner, one step further. -/
theorem foundAt (units : r.units = a.occurrences.map (·.unit n)) (distinct : r.names.Nodup)
    {p : Occurrence} (hp : p ∈ a.occurrences) {b : Aggregate} (hb : p.declaration = .aggregate b)
    {k : Nat} {f : Field} {i : UInt64} {d : Declaration} (field : b.fields[k]? = some f)
    (type : f.type = .nested i) (declared : b.nested? i = some d) :
    ∃ position, a.FoundAt n r p k f d position := by
  rw [← Declaration.occurrences_aggregate, Declaration.mem_occurrences_iff, hb] at hp
  let q : Occurrence := ⟨p.address ++ [k], p.names ++ [f.name], d⟩
  have hq : q ∈ (Declaration.aggregate a).occurrences :=
    Declaration.mem_occurrences_iff.2 (hp.snoc field type declared)
  rw [Declaration.occurrences_aggregate] at hq
  obtain ⟨position, occurs⟩ := List.getElem?_of_mem hq
  have name : q.assigned n = f.nestedName (p.assigned n) := by
    rw [Occurrence.assigned, Occurrence.assigned, Field.nestedName_eq, ← List.cons_append,
      String.intercalate_append_of_ne_nil (List.cons_ne_nil _ _) (List.cons_ne_nil _ _),
      String.intercalate_singleton]
  have unit : r.units[position]? = some (d.toUnit (f.nestedName (p.assigned n))) := by
    rw [units, List.getElem?_map, occurs, Option.map_some, Occurrence.unit, name]
  have first := Register.firstPosition?_of_nodup distinct unit
  rw [Declaration.name_toUnit] at first
  refine ⟨position, Field.flatFields_of_nested type _, occurs, unit, first, fun j u hu same ↦ ?_⟩
  exact Register.position_eq_of_nodup distinct hu unit (same.trans (d.name_toUnit _).symm)

/-- A registered aggregate adds one unit for each path of nested fields, and its name says the names
on the path. If the names of nested fields are distinct and without underscores in each aggregate
that is reached, all units have different names, and each nested field finds the unit of the
declaration to which it refers. -/
theorem register_unit_per_path {position : Nat}
    (h : ((a.register n).runFrom {}).1 = .ok position) :
    a.UnitPerPath n ((a.register n).runFrom {}).2.register ∧
      ((Declaration.aggregate a).NestedNamesApart →
        ((a.register n).runFrom {}).2.register.names.Nodup ∧
          ∀ p ∈ a.occurrences, ∀ b, p.declaration = .aggregate b →
            ∀ (k : Nat) (f : Field) (i : UInt64), b.fields[k]? = some f → f.type = .nested i →
              ∃ d position, b.nested? i = some d ∧
                a.FoundAt n ((a.register n).runFrom {}).2.register p k f d position) := by
  have performs := a.performs_register n
  obtain ⟨clean, -⟩ := (performs.runFrom_eq_ok_iff {}).1 h
  have units := performs.units_runFrom {}
  rw [Walk.done_of_offence?_eq_none clean, units_steps, postOrder_eq_map_occurrences,
    List.nil_append] at units
  have perPath := unitPerPath units
  refine ⟨perPath, fun named ↦ ?_⟩
  have distinct : ((a.register n).runFrom {}).2.register.names.Nodup := by
    have apart := named.nodup_assigned n
    rw [Declaration.occurrences_aggregate] at apart
    rw [perPath.named]
    exact apart
  refine ⟨distinct, fun p hp b hb k f i field type ↦ ?_⟩
  -- the field has not failed, so its owner has the declaration
  have path := (perPath.paths p).1 hp
  rw [hb] at path
  have entered := enter_mem_steps_iff.2 ⟨_, path.fieldAt field n⟩
  obtain ⟨d, declared⟩ := Site.exists_nested? type <| Option.eq_none_iff_forall_ne_some.2
    fun e he ↦ Walk.offence?_ne_none_of_mem entered he clean
  obtain ⟨position, found⟩ := foundAt units distinct hp hb field type declared
  exact ⟨d, position, declared, found⟩

/-- A bit-field without a name, of an enumeration. -/
def lamp : Field where
  name := ""
  type := .nested 0
  bitWidth := some 1

/-- The owner of the bit-field. -/
def tower : Aggregate where
  fields := [lamp]
  declarations := [.enumeration { members := [{ name := "ON", value := 1 }] }]

/-- Two fields that share a declaration. -/
def towers : Aggregate where
  fields :=
    [{ name := "left", type := .nested 0 }, { name := "height", type := .primitive .int },
      { name := "right", type := .nested 0 }]
  declarations := [.aggregate tower]

/-- Two fields share a declaration, and the field below has an empty name: all five names are
distinct. -/
theorem register_unit_per_path_towers :
    ((towers.register "T").runFrom {}).1 = .ok 4 ∧
      towers.UnitPerPath "T" ((towers.register "T").runFrom {}).2.register ∧
      (Declaration.aggregate towers).NestedNamesApart ∧
      ((towers.register "T").runFrom {}).2.register.names =
        ["T_left_", "T_left", "T_right_", "T_right", "T"] ∧
      ((towers.register "T").runFrom {}).2.register.names.Nodup ∧
      ∃ d position, towers.FoundAt "T" ((towers.register "T").runFrom {}).2.register
        ⟨[2], ["right"], .aggregate tower⟩ 0 lamp d position := by
  have named : (Declaration.aggregate towers).NestedNamesApart := by
    refine Declaration.nestedNamesApart_aggregate ⟨by decide, by decide⟩ fun d hd ↦ ?_
    rw [List.mem_singleton.1 hd]
    refine Declaration.nestedNamesApart_aggregate ⟨by decide, by decide⟩ fun d hd ↦ ?_
    rw [List.mem_singleton.1 hd]
    exact Declaration.nestedNamesApart_enumeration _
  obtain ⟨perPath, found⟩ := register_unit_per_path (a := towers) (n := "T") rfl
  obtain ⟨distinct, found⟩ := found named
  have occurs : ⟨[2], ["right"], .aggregate tower⟩ ∈ towers.occurrences :=
    List.mem_of_getElem? (i := 3) rfl
  obtain ⟨d, position, -, lit⟩ := found _ occurs tower rfl 0 lamp 0 rfl rfl
  exact ⟨rfl, perPath, named, rfl, distinct, d, position, lit⟩

end Aggregate

end FlatDecls
