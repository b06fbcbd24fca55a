import FlatDecls.Toml.Table

/-!
# How tables grow

While a document is read its tables only grow (`Table.Extends`): values stay what they are, tables
stay tables, lists stay lists, and a table that a header opened is not opened again. What is done at
the end of a path shows behind that path and nowhere else, unless a list stands on the way
(`Table.at?_modifyAt`).
-/

namespace FlatDecls.Toml

/-! ### Looking up keys -/

namespace Table

variable {t t' u u' : Table} {key : String} {path : List String} {item item' : Item}

/-- What is put in a table does not change how the table came about. -/
@[simp]
theorem origin_put (t : Table) (key : String) (item : Item) :
    (t.put key item).origin = t.origin := by
  unfold put
  split
  · rfl
  · rfl

/-- Putting an item changes what is found under its key only. -/
theorem find?_put (t : Table) (key : String) (item : Item) (other : String) :
    (t.put key item).find? other = if other = key then some item else t.find? other := by
  unfold put find?
  split
  · next there =>
    have sameKey : ((fun e : Entry ↦ e.key == other) ∘
        fun e ↦ if e.key == key then ⟨key, item⟩ else e) = fun e ↦ e.key == other := by
      funext e
      by_cases here : e.key = key <;> simp [here]
    rw [List.find?_map, sameKey, Option.map_map]
    cases found : t.entries.find? fun e ↦ e.key == other with
    | none =>
      have other_ne : other ≠ key := by
        rintro rfl
        obtain ⟨e, mem, is⟩ := List.any_eq_true.1 there
        exact absurd is (List.find?_eq_none.1 found e mem)
      simp [other_ne]
    | some e =>
      have is : e.key = other := by simpa using List.find?_some found
      by_cases here : other = key <;> simp [is, here]
  · next missing =>
    rw [List.find?_append]
    by_cases here : other = key
    · subst here
      have none : t.entries.find? (fun e ↦ e.key == other) = none :=
        List.find?_eq_none.2 fun e mem is ↦ missing (List.any_eq_true.2 ⟨e, mem, is⟩)
      simp [none]
    · have none : List.find? (fun e : Entry ↦ e.key == other) [⟨key, item⟩] = none := by
        simp [Ne.symm here]
      simp [none, here]

theorem find?_put_self (t : Table) (key : String) (item : Item) :
    (t.put key item).find? key = some item := by
  rw [find?_put, if_pos rfl]

/-- What stands at the end of a path that leads through tables only. -/
def at? : List String → Table → Option Item
  | [], t => some (.table t)
  | key :: path, t =>
    match t.find? key with
    | some (.table inner) => at? path inner
    | some item => if path.isEmpty then some item else none
    | none => none

/-- A path is followed through tables only; at any other item it must end. -/
theorem at?_cons (key : String) (path : List String) (t : Table) :
    t.at? (key :: path) =
      match t.find? key with
      | some (.table inner) => inner.at? path
      | some item => if path.isEmpty then some item else none
      | none => none := rfl

theorem at?_cons_of_table (h : t.find? key = some (.table u)) :
    t.at? (key :: path) = u.at? path := by
  rw [at?_cons, h]

theorem at?_cons_of_none (h : t.find? key = none) : t.at? (key :: path) = none := by
  rw [at?_cons, h]

theorem at?_singleton (key : String) (t : Table) : t.at? [key] = t.find? key := by
  rw [at?_cons]
  split
  · next found => exact found.symm
  · next _ found => exact found.symm
  · next found => exact found.symm

end Table

/-! ### Growth -/

/-- What an item may become: a value nothing else, a table a table, which may be opened only if it
has not been yet, and a list a list. -/
inductive Item.Becomes : Item → Item → Prop
  | value (v : Value) : Becomes (.value v) (.value v)
  | table {t t' : Table} (origin : t.origin = .super ∨ t'.origin = t.origin) :
      Becomes (.table t) (.table t')
  | list (init : List Table) (last : Table) (init' : List Table) (last' : Table) :
      Becomes (.list init last) (.list init' last')

/-- Nothing has to happen to an item. -/
theorem Item.Becomes.refl (item : Item) : item.Becomes item := by
  cases item with
  | value v => exact .value v
  | table t => exact .table (.inr rfl)
  | list init last => exact .list init last init last

/-- Values stay for good, and tables and lists stay tables and lists. -/
theorem Item.Becomes.trans {item item' item'' : Item} (h : item.Becomes item')
    (h' : item'.Becomes item'') : item.Becomes item'' := by
  cases h with
  | value v => exact h'
  | table origin =>
    cases h' with
    | table origin' =>
      refine .table ?_
      rcases origin with unopened | same
      · exact .inl unopened
      · rwa [← same]
  | list init last =>
    cases h' with
    | list _ _ init'' last'' => exact .list init last init'' last''

namespace Table

variable {t t' t'' u u' : Table} {key : String} {path : List String}

/-- Whatever stands in a table is still there in the other one, as what it may have become. -/
def Extends (t t' : Table) : Prop :=
  ∀ path item, t.at? path = some item → ∃ item', t'.at? path = some item' ∧ item.Becomes item'

theorem Extends.refl (t : Table) : t.Extends t := fun _ item found ↦ ⟨item, found, .refl item⟩

/-- Growing in two steps is growing. -/
theorem Extends.trans (h : t.Extends t') (h' : t'.Extends t'') : t.Extends t'' := by
  intro path item found
  obtain ⟨item', found', becomes⟩ := h path item found
  obtain ⟨item'', found'', becomes'⟩ := h' path item' found'
  exact ⟨item'', found'', becomes.trans becomes'⟩

/-- A table extends another if it is as old and what stands behind each key extends what stood
there. -/
theorem extends_of_find? (origin : t.origin = .super ∨ t'.origin = t.origin)
    (h : ∀ key item, t.find? key = some item → ∃ item', t'.find? key = some item' ∧
      item.Becomes item' ∧ ∀ u u', item = .table u → item' = .table u' → u.Extends u') :
    t.Extends t' := by
  intro path item found
  cases path with
  | nil =>
    obtain rfl := Option.some.inj found
    exact ⟨.table t', rfl, .table origin⟩
  | cons key path =>
    rw [at?_cons] at found
    split at found
    · next u here =>
      obtain ⟨item', here', becomes, inside⟩ := h key _ here
      cases becomes with
      | @table _ u' =>
        rw [at?_cons_of_table here']
        exact inside u u' rfl rfl path item found
    · next other here =>
      cases path with
      | cons => cases found
      | nil =>
        obtain rfl := Option.some.inj found
        obtain ⟨item', here', becomes, -⟩ := h key _ here
        exact ⟨item', (at?_singleton key t').trans here', becomes⟩
    · cases found

/-- A table grows if an item in it is replaced by one that it may become, with more inside. -/
theorem extends_put {item item' : Item} (h : t.find? key = some item) (becomes : item.Becomes item')
    (inside : ∀ u u', item = .table u → item' = .table u' → u.Extends u') :
    t.Extends (t.put key item') := by
  refine extends_of_find? (.inr (origin_put t key item')) fun other found there ↦ ?_
  rw [find?_put]
  split
  · next here =>
    subst here
    obtain rfl := Option.some.inj (h.symm.trans there)
    exact ⟨item', rfl, becomes, inside⟩
  · refine ⟨found, there, .refl found, fun u u' is is' ↦ ?_⟩
    obtain rfl : u = u' := by simpa using is.symm.trans is'
    exact .refl u

/-- A new key takes nothing away. -/
theorem extends_put_of_none (h : t.find? key = none) (item : Item) :
    t.Extends (t.put key item) := by
  refine extends_of_find? (.inr (origin_put t key item)) fun other found there ↦ ?_
  rw [find?_put, if_neg]
  · refine ⟨found, there, .refl found, fun u u' is is' ↦ ?_⟩
    obtain rfl : u = u' := by simpa using is.symm.trans is'
    exact .refl u
  · rintro rfl
    cases h.symm.trans there

theorem Extends.becomes (h : t.Extends t') : (Item.table t).Becomes (.table t') := by
  obtain ⟨item', found, becomes⟩ := h [] _ rfl
  obtain rfl := Option.some.inj found
  exact becomes

variable {dotted : Bool} {f : Table → Option Table}

/-- A change at the end of a path makes the whole table grow if it makes the table there grow. The
induction is along the path, which may open new tables on its way. -/
theorem extends_modifyAt (hf : ∀ u u', f u = some u' → u.Extends u')
    (h : t.modifyAt dotted path f = some t') : t.Extends t' := by
  fun_induction modifyAt dotted path f t generalizing t' with
  | case1 f t => exact hf t t' h
  | case2 key path f t none ih =>
    obtain ⟨inner, -, same⟩ := Option.bind_eq_some_iff.1 h
    obtain rfl := Option.some.inj same
    exact extends_put_of_none none _
  | case3 => cases h
  | case4 key path f t inner here _ ih =>
    obtain ⟨inner', made, same⟩ := Option.bind_eq_some_iff.1 h
    obtain rfl := Option.some.inj same
    have inside := ih hf made
    refine extends_put here inside.becomes fun u u' is is' ↦ ?_
    obtain rfl := Item.table.inj is
    obtain rfl := Item.table.inj is'
    exact inside
  | case5 key path f t init last here ih =>
    obtain ⟨last', -, same⟩ := Option.bind_eq_some_iff.1 h
    obtain rfl := Option.some.inj same
    refine extends_put here (.list init last init last') fun u u' is ↦ ?_
    cases is
  | case6 => cases h

/-- A list stands on the way to a place, or there. -/
def ListOn (t : Table) (path : List String) : Prop :=
  ∃ front init last, front <+: path ∧ t.at? front = some (.list init last)

/-- A list on a path is never replaced, so it stays on the path. -/
theorem ListOn.mono (h : t.ListOn path) (extends' : t.Extends t') : t'.ListOn path := by
  obtain ⟨front, init, last, isFront, found⟩ := h
  obtain ⟨item', found', becomes⟩ := extends' front _ found
  cases becomes with
  | list _ _ init' last' => exact ⟨front, init', last', isFront, found'⟩

/-- It lies on every longer path as well. -/
theorem ListOn.append (h : t.ListOn path) (rest : List String) : t.ListOn (path ++ rest) := by
  obtain ⟨front, init, last, isFront, found⟩ := h
  exact ⟨front, init, last, isFront.trans (List.prefix_append path rest), found⟩

theorem at?_empty (origin : Origin) (key : String) (path : List String) :
    (empty origin).at? (key :: path) = none := at?_cons_of_none rfl

/-- What happens at the end of a path, unless a list stands on it. -/
theorem at?_modifyAt (h : t.modifyAt dotted path f = some t') :
    t'.ListOn path ∨ ∃ u u', f u = some u' ∧
      (∀ key rest, t.at? (path ++ key :: rest) = u.at? (key :: rest)) ∧
        ∀ rest, t'.at? (path ++ rest) = u'.at? rest := by
  fun_induction modifyAt dotted path f t generalizing t' with
  | case1 f t => exact .inr ⟨t, t', h, fun _ _ ↦ rfl, fun _ ↦ rfl⟩
  | case2 key path f t none ih =>
    obtain ⟨inner, made, same⟩ := Option.bind_eq_some_iff.1 h
    obtain rfl := Option.some.inj same
    have below (rest : List String) :
        (t.put key (.table inner)).at? (key :: rest) = inner.at? rest :=
      at?_cons_of_table (find?_put_self t key _)
    rcases ih made with ⟨front, init, last, isFront, found⟩ | ⟨u, u', done, before, after⟩
    · exact .inl ⟨key :: front, init, last, by simpa using isFront, (below front).trans found⟩
    · refine .inr ⟨u, u', done, fun key' rest ↦ ?_, fun rest ↦ (below _).trans (after rest)⟩
      rw [← before, List.cons_append, at?_cons_of_none none]
      cases path with
      | nil => exact (at?_empty _ _ _).symm
      | cons first path => exact (at?_empty _ _ _).symm
  | case3 => cases h
  | case4 key path f t inner here _ ih =>
    obtain ⟨inner', made, same⟩ := Option.bind_eq_some_iff.1 h
    obtain rfl := Option.some.inj same
    have below (rest : List String) :
        (t.put key (.table inner')).at? (key :: rest) = inner'.at? rest :=
      at?_cons_of_table (find?_put_self t key _)
    rcases ih made with ⟨front, init, last, isFront, found⟩ | ⟨u, u', done, before, after⟩
    · exact .inl ⟨key :: front, init, last, by simpa using isFront, (below front).trans found⟩
    · refine .inr ⟨u, u', done, fun key' rest ↦ ?_, fun rest ↦ (below _).trans (after rest)⟩
      rw [List.cons_append, at?_cons_of_table here, before]
  | case5 key path f t init last here ih =>
    obtain ⟨last', -, same⟩ := Option.bind_eq_some_iff.1 h
    obtain rfl := Option.some.inj same
    refine .inl ⟨[key], init, last', by simp, ?_⟩
    rw [at?_singleton, find?_put_self]
  | case6 => cases h

/-! ### What is added at the end of a path -/

variable {v : Value} {underDots : Bool}

/-- A value is accepted under a new key only. -/
theorem insert_eq_some (h : t.insert underDots key v = some t') :
    t.find? key = none ∧ t' = t.put key (.value v) := by
  unfold insert at h
  split at h
  · cases h
  split at h
  · cases h
  next missing => exact ⟨by simpa using missing, (Option.some.inj h).symm⟩

/-- A header is accepted for a new key, or for a table that only came about through headers of
tables inside it. The table keeps what it holds. -/
theorem openTable_eq_some (h : t.openTable key = some t') :
    (∀ item, t.find? key = some item → ∃ u, item = .table u ∧ u.origin = .super) ∧
      ∃ u, u.origin = .header ∧ t' = t.put key (.table u) ∧
        ∀ u', t.find? key = some (.table u') → u = { u' with origin := .header } := by
  unfold openTable at h
  split at h
  · next none =>
    refine ⟨fun item here ↦ ?_, empty .header, rfl, (Option.some.inj h).symm, fun u' here ↦ ?_⟩
    · cases none.symm.trans here
    · cases none.symm.trans here
  · next inner found =>
    split at h
    · next unopened =>
      refine ⟨fun item here ↦ ⟨inner, ?_, by simpa using unopened⟩,
        { inner with origin := .header }, rfl, (Option.some.inj h).symm, fun u' here ↦ ?_⟩
      · exact Option.some.inj (here.symm.trans found)
      · rw [Item.table.inj (Option.some.inj (found.symm.trans here))]
    · cases h
  · cases h

/-- A header for an element is accepted for a new key or for a list that such headers made. -/
theorem openElement_eq_some (h : t.openElement key = some t') :
    ∃ init last, t' = t.put key (.list init last) ∧
      ∀ item, t.find? key = some item → ∃ init' last', item = .list init' last' := by
  unfold openElement at h
  split at h
  · next none =>
    exact ⟨_, _, (Option.some.inj h).symm, fun item here ↦ by cases none.symm.trans here⟩
  · next init last found =>
    refine ⟨_, _, (Option.some.inj h).symm, fun item here ↦ ⟨init, last, ?_⟩⟩
    exact Option.some.inj (here.symm.trans found)
  · cases h

theorem extends_insert (h : t.insert underDots key v = some t') : t.Extends t' := by
  obtain ⟨none, rfl⟩ := insert_eq_some h
  exact extends_put_of_none none _

/-- Opening a table changes nothing in it. -/
theorem extends_origin (u : Table) (unopened : u.origin = .super) (origin : Origin) :
    u.Extends { u with origin } := by
  refine extends_of_find? (.inl unopened) fun key item here ↦ ⟨item, here, .refl item, ?_⟩
  intro w w' is is'
  obtain rfl : w = w' := by simpa using is.symm.trans is'
  exact .refl w

/-- A header takes nothing away from a table that was there already. -/
theorem extends_openTable (h : t.openTable key = some t') : t.Extends t' := by
  obtain ⟨free, u, opened, rfl, same⟩ := openTable_eq_some h
  cases here : t.find? key with
  | none => exact extends_put_of_none here _
  | some item =>
    obtain ⟨u', rfl, unopened⟩ := free item here
    have inside : u'.Extends u := by
      rw [same u' here]
      exact extends_origin u' unopened .header
    refine extends_put here inside.becomes fun w w' is is' ↦ ?_
    obtain rfl := Item.table.inj is
    obtain rfl := Item.table.inj is'
    exact inside

/-- One more element leaves those in front of it in place. -/
theorem extends_openElement (h : t.openElement key = some t') : t.Extends t' := by
  obtain ⟨init, last, rfl, free⟩ := openElement_eq_some h
  cases here : t.find? key with
  | none => exact extends_put_of_none here _
  | some item =>
    obtain ⟨init', last', rfl⟩ := free item here
    exact extends_put here (.list init' last' init last) fun u u' is ↦ by cases is

end Table

/-! ### Entries -/

theorem entryValues_eq (es : List Entry) :
    entryValues es = es.map fun e ↦ (e.key, e.item.toValue) := by
  induction es with
  | nil => simp [entryValues]
  | cons e es ih =>
    obtain ⟨key, item⟩ := e
    rw [entryValues, ih]
    rfl

/-- Only a text means a text. -/
theorem Item.eq_value_of_toValue {item : Item} {s : String} (h : item.toValue = .string s) :
    item = .value (.string s) := by
  cases item with
  | value v =>
    rw [Item.toValue] at h
    rw [h]
  | table t =>
    rw [Item.toValue] at h
    cases h
  | list init last =>
    rw [Item.toValue] at h
    cases h

namespace Table

variable {t t' : Table} {key : String} {path : List String} {item : Item} {e : Entry}

/-- The entries of a table as values keep their keys and their order. -/
theorem toEntries_eq (t : Table) : t.toEntries = t.entries.map fun e ↦ (e.key, e.item.toValue) := by
  obtain ⟨origin, entries⟩ := t
  rw [toEntries, entryValues_eq]

/-- Nothing is in a table behind a change but what was there and what was put. -/
theorem mem_entries_put (h : e ∈ (t.put key item).entries) : e ∈ t.entries ∨ e = ⟨key, item⟩ := by
  unfold put at h
  split at h
  · obtain ⟨e', mem, rfl⟩ := List.mem_map.1 h
    by_cases here : e'.key = key <;> simp [here, mem]
  · simpa using h

/-- The keys of a table differ. -/
def Distinct (t : Table) : Prop := (t.entries.map (·.key)).Nodup

/-- A key that is there is replaced where it stands, so keys stay distinct. -/
theorem Distinct.put (h : t.Distinct) (key : String) (item : Item) : (t.put key item).Distinct := by
  unfold Table.put
  split
  · have same : ((fun e : Entry ↦ e.key) ∘ fun e ↦ if e.key == key then ⟨key, item⟩ else e) =
        fun e ↦ e.key := by
      funext e
      by_cases here : e.key = key <;> simp [here]
    rw [Distinct, List.map_map, same]
    exact h
  · next missing =>
    rw [Distinct, List.map_append, List.nodup_append]
    refine ⟨h, by simp, ?_⟩
    rintro k mem k' mem' rfl
    obtain ⟨e, there, rfl⟩ := List.mem_map.1 mem
    refine missing (List.any_eq_true.2 ⟨e, there, ?_⟩)
    simpa using mem'

theorem mem_entries_of_find? (h : t.find? key = some item) : ⟨key, item⟩ ∈ t.entries := by
  obtain ⟨⟨other, _⟩, found, rfl⟩ := Option.map_eq_some_iff.1 h
  obtain rfl : other = key := by simpa using List.find?_some found
  exact List.mem_of_find?_eq_some found

theorem mem_toEntries_iff {v : Value} :
    (key, v) ∈ t.toEntries ↔ ∃ item, ⟨key, item⟩ ∈ t.entries ∧ item.toValue = v := by
  rw [toEntries_eq, List.mem_map]
  constructor
  · rintro ⟨⟨key, item⟩, mem, same⟩
    obtain ⟨rfl, rfl⟩ := Prod.mk.inj same
    exact ⟨item, mem, rfl⟩
  · rintro ⟨item, mem, rfl⟩
    exact ⟨_, mem, rfl⟩

/-- Whatever stands on a path stands in the entry of the path's first key. -/
theorem exists_find?_of_at? (h : t.at? (key :: path) = some item) :
    ∃ first, t.find? key = some first ∧ (key, first.toValue) ∈ t.toEntries := by
  cases here : t.find? key with
  | none => cases (at?_cons_of_none here).symm.trans h
  | some first => exact ⟨first, rfl, mem_toEntries_iff.2 ⟨first, mem_entries_of_find? here, rfl⟩⟩

/-- No path leads through anything but tables. -/
theorem eq_of_at? {first : Item} (h : t.at? (key :: path) = some item)
    (here : t.find? key = some first) (closed : ∀ u, first ≠ .table u) :
    path = [] ∧ item = first := by
  rw [at?_cons, here] at h
  split at h
  · next u same => exact absurd (Option.some.inj same) (closed u)
  · next other same =>
    cases path with
    | nil => exact ⟨rfl, (Option.some.inj (same.trans h)).symm⟩
    | cons => cases h
  · cases h

/-- In a table with distinct keys the entries have distinct keys too. -/
theorem Distinct.nodup_keys (h : t.Distinct) : (t.toEntries.map Prod.fst).Nodup := by
  rw [toEntries_eq, List.map_map]
  exact h

end Table

end FlatDecls.Toml
