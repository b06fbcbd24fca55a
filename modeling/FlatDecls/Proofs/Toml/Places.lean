import Mathlib.Data.List.Nodup
import FlatDecls.Proofs.Toml.Growth
import FlatDecls.Toml.Document

/-!
# Where the statements of a document stand

Each statement has a place, the path from the top of the document to the key that it is about
(`places`). In a document without lists a statement finds its place free and takes it for good, so
no two statements of such a document have the same place (`Draft.nodup_places`), and every key of a
document comes from a statement whose place begins with it (`Draft.exists_place_of_run`).
-/

namespace FlatDecls.Toml

/-! ### Places -/

/-- The parts of a key. -/
def DottedKey.parts (key : DottedKey) : List String := key.path ++ [key.last]

namespace Statement

/-- The path from the top of the document to what a statement is about, where `current` is the table
that assignments go to. -/
def place (current : List String) : Statement → List String
  | assign key _ => current ++ key.parts
  | table key => key.parts
  | element key => key.parts

/-- The table that assignments go to behind a statement. -/
def opens (current : List String) : Statement → List String
  | assign _ _ => current
  | table key => key.parts
  | element key => key.parts

/-- The value that a statement assigns; a header has none. -/
def value? : Statement → Option Value
  | assign _ v => some v
  | table _ => none
  | element _ => none

/-- The last part of the key that a statement is about. -/
def last : Statement → String
  | assign key _ => key.last
  | table key => key.last
  | element key => key.last

/-- What a statement makes of the table of the document. -/
def grow (current : List String) : Statement → Table → Option Table
  | assign key v => Table.modifyAt false current (Table.assign key.path key.last v)
  | table key => Table.modifyAt false key.path (Table.openTable key.last)
  | element key => Table.modifyAt false key.path (Table.openElement key.last)

end Statement

/-- The places of statements, with the values that they assign. -/
def places (current : List String) : List Statement → List (List String × Option Value)
  | [] => []
  | s :: ss => (s.place current, s.value?) :: places (s.opens current) ss

/-- What a statement is about depends on the last header in front of it. -/
theorem places_append (current : List String) (ss ts : List Statement) :
    places current (ss ++ ts) =
      places current ss ++ places (ss.foldl Statement.opens current) ts := by
  induction ss generalizing current with
  | nil => rfl
  | cons s ss ih => rw [List.cons_append, places, ih, places, List.cons_append, List.foldl_cons]

/-- The last key of a place is written in the statement itself. -/
theorem getLast?_places (current : List String) (ss : List Statement) :
    (places current ss).map (·.1.getLast?) = ss.map fun s ↦ some s.last := by
  induction ss generalizing current with
  | nil => rfl
  | cons s ss ih =>
    have last : (s.place current).getLast? = some s.last := by
      cases s with
      | assign | table | element => simp [Statement.place, Statement.last, DottedKey.parts]
    rw [places, List.map_cons, List.map_cons, ih, last]

/-- Where places differ in their last parts, no statement stands there twice. -/
theorem nodup_of_places {current : List String} {ss : List Statement}
    (distinct : ((places current ss).map Prod.fst).Nodup)
    (apart : ∀ p ∈ places current ss, ∀ q ∈ places current ss,
      p.1.getLast? = q.1.getLast? → p.1 = q.1) : ss.Nodup := by
  have lasts : ((places current ss).map (·.1.getLast?)).Nodup := by
    refine List.Nodup.map_on (fun p mem q mem' same ↦ ?_) distinct.of_map
    exact List.inj_on_of_nodup_map distinct mem mem' (apart p mem q mem' same)
  rw [getLast?_places] at lasts
  exact lasts.of_map

namespace Table

variable {t t' u : Table} {key : String} {path place place' : List String} {v : Value}
  {what other : Option Value} {dotted : Bool} {f : Table → Option Table}

/-! ### Places are taken once -/

/-- At a place stands a value, or a table that a header opened. -/
def Holds (t : Table) (place : List String) : Option Value → Prop
  | some v => t.at? place = some (.value v)
  | none => ∃ u, t.at? place = some (.table u) ∧ u.origin = .header

/-- What a table holds in a place it also holds when it has grown. -/
theorem Holds.mono (h : t.Holds place what) (extends' : t.Extends t') : t'.Holds place what := by
  cases what with
  | some v =>
    obtain ⟨item', found, becomes⟩ := extends' place _ h
    cases becomes with
    | value => exact found
  | none =>
    obtain ⟨u, found, opened⟩ := h
    obtain ⟨item', found', becomes⟩ := extends' place _ found
    cases becomes with
    | @table _ u' origin =>
      rcases origin with unopened | same
      · cases opened.symm.trans unopened
      · exact ⟨u', found', same.trans opened⟩

theorem holds_congr (same : t.at? place = u.at? place') :
    t.Holds place what ↔ u.Holds place' what := by
  cases what with
  | some v => rw [Holds, Holds, same]
  | none => simp only [Holds, same]

/-- A place is free if at most a table stands there that no header has opened yet. -/
theorem not_holds_of_at?
    (h : ∀ item, t.at? place = some item → ∃ u, item = .table u ∧ u.origin = .super)
    (other : Option Value) : ¬ t.Holds place other := by
  intro holds
  cases other with
  | some v => obtain ⟨u, ⟨⟩, -⟩ := h _ holds
  | none =>
    obtain ⟨u, found, opened⟩ := holds
    obtain ⟨u', same, unopened⟩ := h _ found
    obtain rfl := Item.table.inj same
    cases opened.symm.trans unopened

/-- A place was free and is taken, unless a list stands on the way. -/
def Takes (t t' : Table) (place : List String) (what : Option Value) : Prop :=
  t'.ListOn place ∨ (∀ other, ¬ t.Holds place other) ∧ t'.Holds place what

/-- A value takes a place that was empty. -/
theorem takes_insert {underDots : Bool} (h : t.insert underDots key v = some t') :
    t.Takes t' [key] (some v) := by
  obtain ⟨none, rfl⟩ := insert_eq_some h
  refine .inr ⟨not_holds_of_at? fun item found ↦ ?_, ?_⟩
  · cases (none.symm.trans (at?_singleton key t).symm).trans found
  · rw [Holds, at?_singleton, find?_put_self]

/-- A header takes a place that is empty, or has only come about through headers further inside. -/
theorem takes_openTable (h : t.openTable key = some t') : t.Takes t' [key] none := by
  obtain ⟨free, u, opened, rfl, -⟩ := openTable_eq_some h
  refine .inr ⟨not_holds_of_at? fun item found ↦ ?_, u, ?_, opened⟩
  · exact free item ((at?_singleton key t).symm.trans found)
  · rw [at?_singleton, find?_put_self]

/-- A header for an element takes its place for a list. -/
theorem takes_openElement (h : t.openElement key = some t') : t.Takes t' [key] none := by
  obtain ⟨init, last, rfl, -⟩ := openElement_eq_some h
  refine .inl ⟨[key], init, last, List.prefix_refl _, ?_⟩
  rw [at?_singleton, find?_put_self]

/-- What a change at the end of a path takes is taken in the whole table, behind the path. The
induction is along the path. -/
theorem takes_modifyAt (nonempty : place ≠ []) (hf : ∀ u u', f u = some u' → u.Takes u' place what)
    (h : t.modifyAt dotted path f = some t') : t.Takes t' (path ++ place) what := by
  obtain ⟨key, rest, rfl⟩ := List.exists_cons_of_ne_nil nonempty
  rcases at?_modifyAt h with list | ⟨u, u', done, before, after⟩
  · exact .inl (list.append _)
  rcases hf u u' done with ⟨front, init, last, isFront, found⟩ | ⟨free, taken⟩
  · exact .inl ⟨path ++ front, init, last, (List.prefix_append_right_inj _).2 isFront,
      (after front).trans found⟩
  · exact .inr ⟨fun other holds ↦ free other ((holds_congr (before key rest)).1 holds),
      (holds_congr (after _)).2 taken⟩

/-! ### The first keys of places -/

/-- What stands behind the first key of a place is changed, and becomes a value only if the place
has no other key. -/
def Touches (t t' : Table) (place : List String) (what : Option Value) : Prop :=
  ∃ key item, t' = t.put key item ∧ place.head? = some key ∧
    ∀ v, item = .value v → place = [key] ∧ what = some v

/-- Besides the place of its key a value changes nothing. -/
theorem touches_insert {underDots : Bool} (h : t.insert underDots key v = some t') :
    t.Touches t' [key] (some v) := by
  obtain ⟨-, rfl⟩ := insert_eq_some h
  exact ⟨key, .value v, rfl, rfl, fun w is ↦ ⟨rfl, congrArg _ (Item.value.inj is)⟩⟩

/-- Nor does a header change anything but what stands under its key. -/
theorem touches_openTable (h : t.openTable key = some t') : t.Touches t' [key] none := by
  obtain ⟨-, u, -, rfl, -⟩ := openTable_eq_some h
  exact ⟨key, .table u, rfl, rfl, by simp⟩

theorem touches_openElement (h : t.openElement key = some t') : t.Touches t' [key] none := by
  obtain ⟨init, last, rfl, -⟩ := openElement_eq_some h
  exact ⟨key, .list init last, rfl, rfl, by simp⟩

/-- A change at the end of a path touches only the places behind the path and the tables on the
way. -/
theorem touches_modifyAt (hf : ∀ u u', f u = some u' → u.Touches u' place what)
    (h : t.modifyAt dotted path f = some t') : t.Touches t' (path ++ place) what := by
  cases path with
  | nil => exact hf t t' h
  | cons key path =>
    rw [modifyAt] at h
    split at h
    · obtain ⟨inner, -, same⟩ := Option.bind_eq_some_iff.1 h
      exact ⟨key, .table inner, (Option.some.inj same).symm, rfl, by simp⟩
    · split at h
      · cases h
      · obtain ⟨inner, -, same⟩ := Option.bind_eq_some_iff.1 h
        exact ⟨key, .table inner, (Option.some.inj same).symm, rfl, by simp⟩
    · next init _ _ =>
      obtain ⟨last, -, same⟩ := Option.bind_eq_some_iff.1 h
      exact ⟨key, .list init last, (Option.some.inj same).symm, rfl, by simp⟩
    · cases h

/-- What is touched in one place keeps distinct keys. -/
theorem Touches.distinct (h : t.Touches t' place what) (distinct : t.Distinct) : t'.Distinct := by
  obtain ⟨key, item, rfl, -⟩ := h
  exact distinct.put key item

/-- What stands in a table after one place has been touched. -/
theorem Touches.entry {e : Entry} (h : t.Touches t' place what) (mem : e ∈ t'.entries) :
    e ∈ t.entries ∨ place.head? = some e.key ∧
      ∀ v, e.item = .value v → place = [e.key] ∧ what = some v := by
  obtain ⟨key, item, rfl, head, only⟩ := h
  rcases mem_entries_put mem with before | rfl
  · exact .inl before
  · exact .inr ⟨head, only⟩

end Table

/-! ### Statements -/

namespace Statement

variable {s : Statement} {current : List String} {t t' : Table}

/-- No statement takes away what an earlier one put there. -/
theorem extends_grow (h : s.grow current t = some t') : t.Extends t' := by
  cases s with
  | assign key v =>
    exact Table.extends_modifyAt
      (fun _ _ ↦ Table.extends_modifyAt fun _ _ ↦ Table.extends_insert) h
  | table key => exact Table.extends_modifyAt (fun _ _ ↦ Table.extends_openTable) h
  | element key => exact Table.extends_modifyAt (fun _ _ ↦ Table.extends_openElement) h

/-- A statement takes the place that it is about. -/
theorem takes_grow (h : s.grow current t = some t') : t.Takes t' (s.place current) s.value? := by
  cases s with
  | assign key v =>
    refine Table.takes_modifyAt (by simp [DottedKey.parts]) (fun _ _ ↦ ?_) h
    exact Table.takes_modifyAt (by simp) fun _ _ ↦ Table.takes_insert
  | table key => exact Table.takes_modifyAt (by simp) (fun _ _ ↦ Table.takes_openTable) h
  | element key => exact Table.takes_modifyAt (by simp) (fun _ _ ↦ Table.takes_openElement) h

/-- A statement touches no other place. -/
theorem touches_grow (h : s.grow current t = some t') :
    t.Touches t' (s.place current) s.value? := by
  cases s with
  | assign key v =>
    exact Table.touches_modifyAt
      (fun _ _ ↦ Table.touches_modifyAt fun _ _ ↦ Table.touches_insert) h
  | table key => exact Table.touches_modifyAt (fun _ _ ↦ Table.touches_openTable) h
  | element key => exact Table.touches_modifyAt (fun _ _ ↦ Table.touches_openElement) h

end Statement

namespace Draft

variable {d d' : Draft} {s : Statement} {ss : List Statement}

/-- Everything that one statement does. -/
theorem step_eq_some (h : d.step s = some d') :
    s.grow d.current d.root = some d'.root ∧ d'.current = s.opens d.current := by
  cases s with
  | assign | table | element =>
    obtain ⟨root, made, same⟩ := Option.bind_eq_some_iff.1 h
    obtain rfl := Option.some.inj same
    exact ⟨made, rfl⟩

/-- What each statement preserves all of them do. -/
theorem run_preserves {P : Table → Prop}
    (grows : ∀ current s t t', Statement.grow current s t = some t' → P t → P t')
    (h : ss.foldlM step d = some d') (start : P d.root) : P d'.root := by
  induction ss generalizing d with
  | nil =>
    obtain rfl := Option.some.inj h
    exact start
  | cons s ss ih =>
    rw [List.foldlM_cons] at h
    obtain ⟨mid, first, rest⟩ := Option.bind_eq_some_iff.1 h
    exact ih rest (grows _ _ _ _ (step_eq_some first).1 start)

/-- What statements have built is still there behind those that follow. -/
theorem extends_run (h : ss.foldlM step d = some d') : d.root.Extends d'.root :=
  run_preserves (fun _ _ _ _ grown extends' ↦ extends'.trans (Statement.extends_grow grown)) h
    (.refl d.root)

/-- The keys of the top table stay distinct, whatever the statements are. -/
theorem distinct_run (h : ss.foldlM step d = some d') (distinct : d.root.Distinct) :
    d'.root.Distinct :=
  run_preserves (fun _ _ _ _ grown ↦ (Statement.touches_grow grown).distinct) h distinct

/-- In a document in which no lists are left each statement found its place free, and what it put
there is still there; so each place is that of one statement only. -/
theorem nodup_places (h : ss.foldlM step d = some d')
    (noLists : ∀ path, ¬ d'.root.ListOn path) :
    (∀ p ∈ places d.current ss, (∀ other, ¬ d.root.Holds p.1 other) ∧ d'.root.Holds p.1 p.2) ∧
      ((places d.current ss).map Prod.fst).Nodup := by
  induction ss generalizing d with
  | nil => simp [places]
  | cons s ss ih =>
    rw [List.foldlM_cons] at h
    obtain ⟨mid, first, rest⟩ := Option.bind_eq_some_iff.1 h
    obtain ⟨grown, current⟩ := step_eq_some first
    obtain ⟨later, distinct⟩ := ih rest
    rw [current] at later distinct
    rcases Statement.takes_grow grown with list | ⟨free, taken⟩
    · exact absurd (list.mono (extends_run rest)) (noLists _)
    -- The later statements found their places free in a larger table, so they had been free before
    -- and none of them is the place taken here.
    rw [places, List.map_cons, List.nodup_cons, List.forall_mem_cons]
    refine ⟨⟨⟨free, taken.mono (extends_run rest)⟩, fun p mem ↦ ?_⟩, ?_, distinct⟩
    · refine ⟨fun other holds ↦ ?_, (later p mem).2⟩
      exact (later p mem).1 other (holds.mono (Statement.extends_grow grown))
    · intro again
      obtain ⟨p, mem, same⟩ := List.mem_map.1 again
      exact (later p mem).1 s.value? (same ▸ taken)

/-- Every key of a document comes from a statement, and if a value stands there it is the one
assigned. -/
theorem exists_place_of_run {e : Entry} (h : ss.foldlM step d = some d')
    (mem : e ∈ d'.root.entries) :
    e ∈ d.root.entries ∨ ∃ p ∈ places d.current ss, p.1.head? = some e.key ∧
      ∀ v, e.item = .value v → p = ([e.key], some v) := by
  induction ss generalizing d with
  | nil =>
    obtain rfl := Option.some.inj h
    exact .inl mem
  | cons s ss ih =>
    rw [List.foldlM_cons] at h
    obtain ⟨mid, first, rest⟩ := Option.bind_eq_some_iff.1 h
    obtain ⟨grown, current⟩ := step_eq_some first
    rw [places]
    rcases ih rest with before | ⟨p, later, said⟩
    · rcases (Statement.touches_grow grown).entry before with before | ⟨head, only⟩
      · exact .inl before
      · refine .inr ⟨_, List.mem_cons_self, head, fun v is ↦ ?_⟩
        obtain ⟨place, value⟩ := only v is
        rw [place, value]
    · rw [current] at later
      exact .inr ⟨p, List.mem_cons_of_mem _ later, said⟩

end Draft

/-- The entries of a document are those of the table that its statements build. -/
theorem exists_run_of_read? {text : String} {entries : List (String × Value)}
    (h : read? text = some entries) :
    ∃ ss d, statements? (skipMark text.toList) = some ss ∧ ss.foldlM Draft.step {} = some d ∧
      entries = d.root.toEntries := by
  obtain ⟨ss, said, h⟩ := Option.bind_eq_some_iff.1 h
  obtain ⟨d, run, h⟩ := Option.bind_eq_some_iff.1 h
  by_cases valid : entriesValid d.root.toEntries = true
  · exact ⟨ss, d, said, run, (Option.some.inj ((if_pos valid).symm.trans h)).symm⟩
  · cases (if_neg valid).symm.trans h

end FlatDecls.Toml
