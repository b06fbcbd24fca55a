import FlatDecls.Proofs.Manifest.Entries
import FlatDecls.Proofs.Toml.Places
import FlatDecls.Proofs.Toml.Spelling

/-!
# Which documents are manifests

A manifest may be written with one assignment for each of its parts, in any order, with comments and
blank lines in between (`WrittenAs`), and every such text is read as this manifest. Conversely each
statement of a text that is read as a manifest stands at one of a few places and says there what the
manifest says (`Says`), and no two stand at the same place (`SaidBy`). The places are the four keys
and, behind `emit`, the names of the formats: a format may be written as a table with its name as
only key, so `emit.json = {}` and the header `[emit.json]` stand for `emit = "json"`.
-/

namespace FlatDecls.Manifest

open Json (eq_ok_of_bind)
open Toml (Item Statement Table Value)

variable {m : Manifest} {f : EmitFormat} {t : Table} {key : String} {path : List String}
  {item : Item} {what : Option Value} {text : String} {ss : List Statement}

/-! ### Formats as tables -/

/-- A format is understood under its own name only. -/
theorem eq_name_of_format {name : String} (h : format name = .ok f) : name = f.name := by
  unfold format at h
  split at h
  · next found =>
    obtain rfl := Except.ok.inj h
    have same := List.find?_some found
    exact (eq_of_beq same).symm
  · cases h

/-- A table for the format has one entry, under the format's name. -/
theorem eq_of_emitValue_table {es : List (String × Value)} (h : emitValue (.table es) = .ok f) :
    ∃ v, es = [(f.name, v)] ∧ checkEmpty v = .ok () := by
  match es, h with
  | [], h => cases h
  | [(name, v)], h =>
    obtain ⟨g, named, rest⟩ := eq_ok_of_bind h
    obtain ⟨⟨⟩, empty, same⟩ := eq_ok_of_bind rest
    obtain rfl := Except.ok.inj same
    exact ⟨v, by rw [eq_name_of_format named], empty⟩
  | _ :: _ :: _, h => cases h

theorem eq_of_checkEmpty {v : Value} (h : checkEmpty v = .ok ()) :
    v = .table [] ∨ v = .array [] := by
  unfold checkEmpty at h
  split at h
  · exact .inl rfl
  · cases h
  · exact .inr rfl
  · cases h
  · cases h

/-- Nothing: an empty table or an empty array. -/
def IsEmpty (v : Value) : Prop := v = .table [] ∨ v = .array []

/-- In a table in place of a format stands only the name of the format, with nothing in it. -/
theorem eq_of_at?_format (means : emitValue (.table t.toEntries) = .ok f)
    (found : t.at? (key :: path) = some item) :
    key = f.name ∧ path = [] ∧
      ((∃ v, item = .value v ∧ IsEmpty v) ∨ ∃ u, item = .table u ∧ u.toEntries = []) := by
  obtain ⟨v, only, empty⟩ := eq_of_emitValue_table means
  obtain ⟨first, here, mem⟩ := Table.exists_find?_of_at? found
  rw [only, List.mem_singleton] at mem
  obtain ⟨rfl, rfl⟩ := Prod.mk.inj mem
  cases first with
  | value w =>
    obtain ⟨rfl, rfl⟩ := Table.eq_of_at? found here (by simp)
    exact ⟨rfl, rfl, .inl ⟨w, rfl, eq_of_checkEmpty empty⟩⟩
  | table u =>
    rw [Table.at?_cons_of_table here] at found
    rw [Item.toValue] at empty
    have none : u.toEntries = [] := by simpa using eq_of_checkEmpty empty
    cases path with
    | nil =>
      obtain rfl := Option.some.inj found
      exact ⟨rfl, rfl, .inr ⟨u, rfl, none⟩⟩
    | cons key path =>
      obtain ⟨_, -, mem⟩ := Table.exists_find?_of_at? found
      rw [none] at mem
      cases mem
  | list init last =>
    -- A list has at least one table, so it counts as filled.
    rw [Item.toValue] at empty
    simpa using eq_of_checkEmpty empty

/-! ### The table of a manifest -/

/-- What may stand behind a path in the table of a manifest. -/
inductive Shows (m : Manifest) : List String → Item → Prop
  | name : Shows m ["name"] (.value (.string m.name))
  | input : Shows m ["input"] (.value (.string m.input.text))
  | output {path : Path} (said : m.output = some path) :
      Shows m ["output"] (.value (.string path.text))
  | emit {v : Value} (means : emitValue v = .ok m.emit) : Shows m ["emit"] (.value v)
  | table (t : Table) : Shows m ["emit"] (.table t)
  | format {v : Value} (empty : IsEmpty v) : Shows m ["emit", m.emit.name] (.value v)
  | formatTable {t : Table} (empty : t.toEntries = []) : Shows m ["emit", m.emit.name] (.table t)

/-- Whatever stands in the table of a manifest is one of its settings. -/
theorem DescribedBy.shows (h : m.DescribedBy t.toEntries)
    (found : t.at? (key :: path) = some item) : m.Shows (key :: path) item := by
  obtain ⟨first, here, mem⟩ := Table.exists_find?_of_at? found
  have known := h.known _ mem
  simp only [keys, List.mem_cons, List.not_mem_nil, or_false] at known
  rcases known with rfl | rfl | rfl | rfl
  · obtain rfl := Item.eq_value_of_toValue ((h.name _).1 mem)
    obtain ⟨rfl, rfl⟩ := Table.eq_of_at? found here (by simp)
    exact .name
  · obtain rfl := Item.eq_value_of_toValue ((h.input _).1 mem)
    obtain ⟨rfl, rfl⟩ := Table.eq_of_at? found here (by simp)
    exact .input
  · obtain ⟨p, said, is⟩ := (h.output _).1 mem
    obtain rfl := Item.eq_value_of_toValue is
    obtain ⟨rfl, rfl⟩ := Table.eq_of_at? found here (by simp)
    exact .output said
  · have means := h.emit _ mem
    cases first with
    | value v =>
      obtain ⟨rfl, rfl⟩ := Table.eq_of_at? found here (by simp)
      rw [Item.toValue] at means
      exact .emit means
    | table u =>
      rw [Table.at?_cons_of_table here] at found
      cases path with
      | nil =>
        obtain rfl := Option.some.inj found
        exact .table u
      | cons key path =>
        rw [Item.toValue] at means
        obtain ⟨rfl, rfl, ⟨v, rfl, empty⟩ | ⟨u, rfl, empty⟩⟩ := eq_of_at?_format means found
        · exact .format empty
        · exact .formatTable empty
    | list init last =>
      rw [Item.toValue] at means
      cases means

/-- There is no list of tables in a manifest. -/
theorem DescribedBy.not_listOn (h : m.DescribedBy t.toEntries) (path : List String) :
    ¬ t.ListOn path := by
  rintro ⟨front, init, last, -, found⟩
  cases front with
  | nil => cases found
  | cons key front => cases h.shows found

/-! ### What the statements of a manifest say -/

/-- A statement at a place agrees with a manifest. Behind the name of its format there is nothing,
whether that is assigned or a table is opened there. -/
inductive Says (m : Manifest) : List String → Option Value → Prop
  | name : Says m ["name"] (some (.string m.name))
  | input : Says m ["input"] (some (.string m.input.text))
  | output {path : Path} (said : m.output = some path) :
      Says m ["output"] (some (.string path.text))
  | emit {v : Value} (means : emitValue v = .ok m.emit) : Says m ["emit"] (some v)
  | header : Says m ["emit"] none
  | format {v : Value} (empty : IsEmpty v) : Says m ["emit", m.emit.name] (some v)
  | formatHeader : Says m ["emit", m.emit.name] none

/-- The places at which the statements of manifests may stand. -/
def knownPlaces : List (List String) :=
  keys.map ([·]) ++ EmitFormat.all.map (["emit", ·.name])

/-- The key of a statement is none of the four, nor is it the name of a format behind `emit` with
nothing in it. -/
def Foreign (place : List String) (what : Option Value) : Prop :=
  place ∉ keys.map ([·]) ∧
    (place ∈ EmitFormat.all.map (["emit", ·.name]) → ∃ v, what = some v ∧ ¬ IsEmpty v)

/-- What a manifest agrees with is not foreign. -/
theorem Says.not_foreign {place : List String} (h : m.Says place what) : ¬ Foreign place what := by
  rintro ⟨noKey, noFormat⟩
  have named : ["emit", m.emit.name] ∈ EmitFormat.all.map (["emit", ·.name]) := by
    cases m.emit <;> decide
  cases h with
  | name | input | output | emit | header => exact noKey (by decide)
  | format empty =>
    obtain ⟨v, same, filled⟩ := noFormat named
    exact filled (Option.some.inj same ▸ empty)
  | formatHeader =>
    obtain ⟨v, same, -⟩ := noFormat named
    cases same

/-- A key at the top of a document that is none of the four is foreign, whatever it is given. -/
theorem foreign_of_not_mem_keys (h : key ∉ keys) : Foreign [key] what := by
  refine ⟨fun mem ↦ ?_, fun mem ↦ ?_⟩
  · obtain ⟨key', mem, same⟩ := List.mem_map.1 mem
    exact h ((List.cons.inj same).1 ▸ mem)
  · obtain ⟨f, -, same⟩ := List.mem_map.1 mem
    cases (List.cons.inj same).2

/-- A manifest speaks about known places only. -/
theorem Says.mem_knownPlaces {place : List String} (h : m.Says place what) :
    place ∈ knownPlaces := by
  cases h with
  | name | input | output | emit | header => decide
  | format | formatHeader => cases m.emit <;> decide

/-- The places of statements, with the values that they assign, make up a manifest. -/
structure SaidBy (m : Manifest) (ps : List (List String × Option Value)) : Prop where
  agree : ∀ p ∈ ps, m.Says p.1 p.2
  distinct : (ps.map Prod.fst).Nodup
  name : (["name"], some (.string m.name)) ∈ ps
  input : (["input"], some (.string m.input.text)) ∈ ps
  output : ∀ path, m.output = some path → (["output"], some (.string path.text)) ∈ ps
  emit : m.emit = .listing ∨ ∃ p ∈ ps, p.1.head? = some "emit"

/-- What the table holds in a place a manifest says about this place. -/
theorem DescribedBy.says_of_holds (h : m.DescribedBy t.toEntries) {place : List String}
    (nonempty : place ≠ []) (holds : t.Holds place what) : m.Says place what := by
  obtain ⟨key, path, rfl⟩ := List.exists_cons_of_ne_nil nonempty
  cases what with
  | some v =>
    cases h.shows holds with
    | name => exact .name
    | input => exact .input
    | output said => exact .output said
    | emit means => exact .emit means
    | format empty => exact .format empty
  | none =>
    obtain ⟨u, found, -⟩ := holds
    cases h.shows found with
    | table => exact .header
    | formatTable => exact .formatHeader

/-- No statement of a manifest is repeated. -/
theorem SaidBy.nodup (h : m.SaidBy (Toml.places [] ss)) : ss.Nodup := by
  refine Toml.nodup_of_places h.distinct fun p mem q mem' same ↦ ?_
  have apart : ∀ place ∈ knownPlaces, ∀ other ∈ knownPlaces,
      place.getLast? = other.getLast? → place = other := by decide
  exact apart _ (h.agree p mem).mem_knownPlaces _ (h.agree q mem').mem_knownPlaces same

/-- A text that is read as a manifest says what stands in the manifest and nothing else. -/
theorem saidBy_of_ofText (h : ofText text = .ok m) :
    ∃ ss, Toml.statements? (Toml.skipMark text.toList) = some ss ∧
      m.SaidBy (Toml.places [] ss) := by
  unfold ofText at h
  split at h
  case h_2 => cases h
  next entries read =>
  obtain ⟨ss, d, said, run, rfl⟩ := Toml.exists_run_of_read? read
  have distinct := Toml.Draft.distinct_run run (by simp [Table.Distinct, Table.empty])
  have described := (ofEntries_eq_ok_iff distinct.nodup_keys).1 h
  obtain ⟨holds, apart⟩ := Toml.Draft.nodup_places run described.not_listOn
  have said_of_value {key s : String} (mem : (key, Value.string s) ∈ d.root.toEntries) :
      ([key], some (.string s)) ∈ Toml.places [] ss := by
    obtain ⟨item, there, is⟩ := Table.mem_toEntries_iff.1 mem
    obtain rfl := Item.eq_value_of_toValue is
    rcases Toml.Draft.exists_place_of_run run there with start | ⟨p, mem, -, value⟩
    · cases start
    · exact value _ rfl ▸ mem
  refine ⟨ss, said, fun p mem ↦ described.says_of_holds ?_ (holds p mem).2, apart, ?_, ?_, ?_, ?_⟩
  · intro top
    refine (holds p mem).1 none ?_
    rw [top]
    exact ⟨_, rfl, rfl⟩
  · exact said_of_value ((described.name _).2 rfl)
  · exact said_of_value ((described.input _).2 rfl)
  · exact fun path output ↦ said_of_value ((described.output _).2 ⟨path, output, rfl⟩)
  · by_cases there : "emit" ∈ d.root.toEntries.map Prod.fst
    · obtain ⟨⟨_, v⟩, mem, rfl⟩ := List.mem_map.1 there
      obtain ⟨item, there, -⟩ := Table.mem_toEntries_iff.1 mem
      rcases Toml.Draft.exists_place_of_run run there with start | ⟨p, mem, head, -⟩
      · cases start
      · exact .inr ⟨p, mem, head⟩
    · exact .inl (described.default there)

/-! ### Manifests as they are written -/

/-- The keys of a manifest with their texts, where the format may be left out. -/
def settings (m : Manifest) (emit : Option EmitFormat) : List (String × String) :=
  [("name", m.name), ("input", m.input.text)] ++
    m.output.toList.map (fun path ↦ ("output", path.text)) ++
      emit.toList.map fun f ↦ ("emit", f.name)

/-- A text gives each key its text, in any order, and leaves out no format but the default. -/
def WrittenAs (m : Manifest) (text : String) : Prop :=
  ∃ emit lines, emit.getD .listing = m.emit ∧ lines.Perm (m.settings emit) ∧
    Toml.Assigns lines (Toml.skipMark text.toList)

/-- Every manifest can be written. -/
theorem exists_writtenAs (m : Manifest) : ∃ text, m.WrittenAs text := by
  obtain ⟨cs, assigns⟩ := Toml.exists_assigns (m.settings (some m.emit))
  -- With a mark in front nothing at the front of the lines can be taken for one.
  refine ⟨String.ofList ('\ufeff' :: cs), some m.emit, _, rfl, .refl _, ?_⟩
  rw [String.toList_ofList]
  exact assigns

theorem nodup_keys_settings (m : Manifest) (emit : Option EmitFormat) :
    ((m.settings emit).map Prod.fst).Nodup := by
  cases output : m.output <;> cases emit <;> simp [settings, output]

/-- The settings of a manifest, each under its key; the output and the format may be left out. -/
theorem mem_settings_iff {emit : Option EmitFormat} {value : String} :
    (key, value) ∈ m.settings emit ↔
      key = "name" ∧ value = m.name ∨ key = "input" ∧ value = m.input.text ∨
        (∃ path, m.output = some path ∧ key = "output" ∧ value = path.text) ∨
          ∃ f, emit = some f ∧ key = "emit" ∧ value = f.name := by
  simp [settings, eq_comm]

/-- The settings in any order describe the manifest, if the format that is left out is the
default. -/
theorem describedBy_settings {emit : Option EmitFormat} {lines : List (String × String)}
    (format : emit.getD .listing = m.emit) (perm : lines.Perm (m.settings emit)) :
    m.DescribedBy (lines.map fun (key, value) ↦ (key, .string value)) := by
  have mem_iff (key : String) (v : Value) :
      (key, v) ∈ (lines.map fun (key, value) ↦ (key, .string value)) ↔
        ∃ value, (key, value) ∈ m.settings emit ∧ v = .string value := by
    simp [perm.mem_iff, eq_comm]
  refine ⟨?_, fun v ↦ ?_, fun v ↦ ?_, fun v ↦ ?_, fun v mem ↦ ?_, fun missing ↦ ?_⟩
  · rintro ⟨key, v⟩ mem
    obtain ⟨value, mem, -⟩ := (mem_iff key v).1 mem
    rcases mem_settings_iff.1 mem with ⟨rfl, -⟩ | ⟨rfl, -⟩ | ⟨path, -, rfl, -⟩ | ⟨f, -, rfl, -⟩
    all_goals simp [keys]
  · simp [mem_iff, mem_settings_iff]
  · simp [mem_iff, mem_settings_iff]
  · simp [mem_iff, mem_settings_iff]
  · obtain ⟨value, there, rfl⟩ := (mem_iff _ v).1 mem
    obtain ⟨f, rfl, rfl⟩ : ∃ f, emit = some f ∧ value = f.name := by
      simpa [mem_settings_iff] using there
    rw [← format]
    exact emitValue_name f
  · cases emit with
    | none => exact format.symm
    | some f =>
      have there : ("emit", f.name) ∈ m.settings (some f) := by simp [mem_settings_iff]
      exact absurd (List.mem_map_of_mem ((mem_iff _ _).2 ⟨_, there, rfl⟩)) missing

/-- What is written for a manifest is read as this manifest. -/
theorem WrittenAs.ofText_eq (h : m.WrittenAs text) : ofText text = .ok m := by
  obtain ⟨emit, lines, format, perm, assigns⟩ := h
  have distinct : (lines.map Prod.fst).Nodup :=
    (perm.map Prod.fst).nodup_iff.2 (nodup_keys_settings m emit)
  have keys : ((lines.map fun (key, value) ↦ (key, Value.string value)).map Prod.fst).Nodup := by
    rw [List.map_map]
    exact distinct
  rw [ofText, assigns.read?_eq distinct]
  exact (ofEntries_eq_ok_iff keys).2 (describedBy_settings format perm)

/-- The text that a value was accepted as is the value. -/
theorem text_toOption {v : Value} {s expected : String}
    (h : (Manifest.text expected v).toOption = some s) : v = .string s := by
  cases v with
  | string t =>
    obtain rfl := Option.some.inj h
    rfl
  | _ => cases h

/-- What is read of a document without an output, in whatever form the format is given. -/
theorem ofText_of_views {name input : String}
    (h : (Toml.read? text).map (·.map fun e ↦
      (e.1, (Manifest.text "" e.2).toOption, (emitValue e.2).toOption)) =
        some [("name", some name, none), ("input", some input, none), ("emit", none, some f)]) :
    ofText text = .ok ⟨name, ⟨input⟩, none, f⟩ := by
  obtain ⟨es, read, views⟩ := Option.map_eq_some_iff.1 h
  obtain ⟨⟨_, v⟩, es, rfl, first, views⟩ := List.map_eq_cons_iff.1 views
  obtain ⟨⟨_, w⟩, es, rfl, second, views⟩ := List.map_eq_cons_iff.1 views
  obtain ⟨⟨_, u⟩, es, rfl, third, views⟩ := List.map_eq_cons_iff.1 views
  obtain rfl := List.map_eq_nil_iff.1 views
  simp only [Prod.mk.injEq] at first second third
  obtain ⟨rfl, isName, -⟩ := first
  obtain ⟨rfl, isInput, -⟩ := second
  obtain ⟨rfl, -, isFormat⟩ := third
  obtain rfl := text_toOption isName
  obtain rfl := text_toOption isInput
  have means : emitValue u = .ok f := by
    cases format : emitValue u with
    | ok g =>
      rw [format] at isFormat
      exact congrArg _ (Option.some.inj isFormat)
    | error e =>
      rw [format] at isFormat
      cases isFormat
  rw [ofText, read]
  refine (ofEntries_eq_ok_iff (by simp)).2 ⟨by simp [keys], by simp, by simp, by simp, ?_, by simp⟩
  simpa using means

/-! ### What makes a text no manifest -/

/-- A text is no manifest if what its statements say makes up none. -/
theorem exists_error_of_statements (said : Toml.statements? (Toml.skipMark text.toList) = some ss)
    (refuses : ∀ m : Manifest, ¬ m.SaidBy (Toml.places [] ss)) :
    ∃ e, ofText text = .error e := by
  cases read : ofText text with
  | error e => exact ⟨e, rfl⟩
  | ok m =>
    obtain ⟨ss', said', by'⟩ := saidBy_of_ofText read
    obtain rfl := Option.some.inj (said.symm.trans said')
    exact absurd by' (refuses m)

/-- A line that repeats an earlier one, is about the same place or has a foreign key is refused,
whatever follows. -/
theorem exists_error_of_line {before line after : List Char} {s : Statement}
    (content : Toml.skipMark text.toList = before ++ (line ++ after)) (front : Toml.Lines before ss)
    (next : Toml.Lines line [s])
    (wrong : s ∈ ss ∨ s.place (ss.foldl Statement.opens []) ∈ (Toml.places [] ss).map Prod.fst ∨
      Foreign (s.place (ss.foldl Statement.opens [])) s.value?) :
    ∃ e, ofText text = .error e := by
  have all : Toml.statements? (Toml.skipMark text.toList) =
      (Toml.statements? after).map fun ts ↦ ss ++ s :: ts := by
    rw [content, front.statements?_append, next.statements?_append, Option.map_map]
    rfl
  cases behind : Toml.statements? after with
  | none =>
    -- A fault behind the line is one of the whole text.
    cases read : ofText text with
    | error e => exact ⟨e, rfl⟩
    | ok m =>
      obtain ⟨ss', said, -⟩ := saidBy_of_ofText read
      rw [all, behind] at said
      cases said
  | some ts =>
    rw [behind] at all
    refine exists_error_of_statements all fun m saidBy ↦ ?_
    have parts : Toml.places [] (ss ++ s :: ts) = Toml.places [] ss ++
        (s.place (ss.foldl Statement.opens []), s.value?) ::
          Toml.places (s.opens (ss.foldl Statement.opens [])) ts := by
      rw [Toml.places_append, Toml.places]
    rcases wrong with again | taken | foreign
    -- A repeated line may stand in another table, but then one of the two places is unknown.
    · have apart := (List.nodup_append.1 saidBy.nodup).2.2
      exact apart s again s List.mem_cons_self rfl
    · have distinct := saidBy.distinct
      rw [parts, List.map_append, List.map_cons] at distinct
      exact (List.nodup_append.1 distinct).2.2 _ taken _ List.mem_cons_self rfl
    · refine (saidBy.agree (_, s.value?) ?_).not_foreign foreign
      rw [parts]
      exact List.mem_append_right _ List.mem_cons_self

/-! ### Documents of texts -/

/-- Where a manifest agrees with a text for a key, the text is written for this key. -/
theorem mem_settings_of_says {value : String} (h : m.Says [key] (some (.string value))) :
    (key, value) ∈ m.settings (some m.emit) := by
  cases h with
  | name => simp [settings]
  | input => simp [settings]
  | output said => simp [settings, said]
  | emit means =>
    obtain rfl := eq_name_of_format means
    simp [settings]

/-- A document that gives texts to keys is read as a manifest exactly if it gives each key of the
manifest its text, in any order, and leaves out no format but the default. -/
theorem ofText_eq_ok_iff_of_assigns {lines : List (String × String)}
    (h : Toml.Assigns lines (Toml.skipMark text.toList)) :
    ofText text = .ok m ↔ ∃ emit, emit.getD .listing = m.emit ∧ lines.Perm (m.settings emit) := by
  refine ⟨fun read ↦ ?_, fun ⟨emit, default, perm⟩ ↦
    WrittenAs.ofText_eq ⟨emit, lines, default, perm, h⟩⟩
  obtain ⟨ss, said, saidBy⟩ := saidBy_of_ofText read
  obtain rfl := Option.some.inj (said.symm.trans h.statements?_eq)
  rw [Toml.places_settings] at saidBy
  have mem_iff (key value : String) :
      ([key], some (Value.string value)) ∈
          lines.map (fun (key, value) ↦ ([key], some (Value.string value))) ↔
        (key, value) ∈ lines := by simp
  have written {key value : String} (mem : (key, value) ∈ lines) :
      (key, value) ∈ m.settings (some m.emit) :=
    mem_settings_of_says (saidBy.agree _ ((mem_iff key value).2 mem))
  have name := (mem_iff _ _).1 saidBy.name
  have input := (mem_iff _ _).1 saidBy.input
  have output (path : Path) (is : m.output = some path) :=
    (mem_iff _ _).1 (saidBy.output path is)
  have distinct : lines.Nodup := by
    have places := saidBy.distinct.of_map
    exact places.of_map
  have perm {emit : Option EmitFormat}
      (same : ∀ value, ("emit", value) ∈ lines ↔ ∃ f, emit = some f ∧ value = f.name) :
      lines.Perm (m.settings emit) := by
    rw [List.perm_ext_iff_of_nodup distinct (nodup_keys_settings m emit).of_map]
    rintro ⟨key, value⟩
    rw [mem_settings_iff]
    constructor
    · intro mem
      rcases mem_settings_iff.1 (written mem) with is | is | is | ⟨f, -, rfl, -⟩
      · exact .inl is
      · exact .inr (.inl is)
      · exact .inr (.inr (.inl is))
      · obtain ⟨f, is⟩ := (same value).1 mem
        exact .inr (.inr (.inr ⟨f, is.1, rfl, is.2⟩))
    · rintro (⟨rfl, rfl⟩ | ⟨rfl, rfl⟩ | ⟨path, is, rfl, rfl⟩ | ⟨f, is, rfl, rfl⟩)
      · exact name
      · exact input
      · exact output path is
      · exact (same _).2 ⟨f, is, rfl⟩
  by_cases there : ∃ value, ("emit", value) ∈ lines
  · obtain ⟨value, mem⟩ := there
    have only {value : String} (mem : ("emit", value) ∈ lines) : value = m.emit.name := by
      simpa [mem_settings_iff] using written mem
    refine ⟨some m.emit, rfl, perm fun other ↦ ?_⟩
    obtain rfl := only mem
    exact ⟨fun mem ↦ ⟨_, rfl, only mem⟩, by rintro ⟨f, ⟨⟩, rfl⟩; exact mem⟩
  · have listing : m.emit = .listing := by
      rcases saidBy.emit with listing | ⟨p, stands, head⟩
      · exact listing
      · obtain ⟨⟨key, value⟩, mem, rfl⟩ := List.mem_map.1 stands
        obtain rfl := Option.some.inj head
        exact absurd ⟨value, mem⟩ there
    refine ⟨none, listing.symm, perm fun value ↦ ?_⟩
    exact ⟨fun mem ↦ absurd ⟨value, mem⟩ there, fun ⟨f, is, _⟩ ↦ by cases is⟩

/-- A line that gives a text to a key which has one already, or is none of the four, is refused
behind any such lines, whatever follows. -/
theorem exists_error_of_setting {before line after : List Char} {lines : List (String × String)}
    {value : String} (content : Toml.skipMark text.toList = before ++ (line ++ after))
    (front : Toml.Assigns lines before) (whole : before = [] ∨ Toml.EndsLine before)
    (next : Toml.Assigns [(key, value)] line) (whole' : Toml.EndsLine line)
    (wrong : key ∈ lines.map Prod.fst ∨ key ∉ keys) : ∃ e, ofText text = .error e := by
  refine exists_error_of_line content (front.lines whole) (next.lines (.inr whole')) (.inr ?_)
  rw [Toml.foldl_opens_settings, Toml.places_settings]
  refine wrong.imp (fun again ↦ ?_) foreign_of_not_mem_keys
  obtain ⟨⟨_, value'⟩, mem, rfl⟩ := List.mem_map.1 again
  exact List.mem_map.2 ⟨_, List.mem_map_of_mem mem, rfl⟩

/-- A line may have a number in the place of what stands behind a format. -/
theorem exists_filled_format : ∃ s v, s.place [] = ["emit", "json"] ∧ s.value? = some v ∧
    ¬IsEmpty v ∧ Toml.Lines "emit.json = 1\n".toList [s] := by
  let view (s : Statement) := (s.place [], s.value?.bind found?)
  have read : (Toml.statements? "emit.json = 1\n".toList).map (·.map view) =
      some [(["emit", "json"], some (.integer 1))] := by decide +kernel
  obtain ⟨ss, said, views⟩ := Option.map_eq_some_iff.1 read
  obtain ⟨s, rfl, seen⟩ := List.map_eq_singleton_iff.1 views
  obtain ⟨place, found⟩ := Prod.mk.inj seen
  obtain ⟨v, value, number⟩ := Option.bind_eq_some_iff.1 found
  refine ⟨s, v, place, value, ?_, said, .inr rfl⟩
  rintro (rfl | rfl)
  all_goals cases number

/-- What is written for a manifest is read as this manifest, and nothing else is. A document that
gives texts to keys must give each key of the manifest its text, and is refused if a key is repeated
or is none of the four, whatever follows. In general a text that is read as a manifest says nothing
else: without a name or an input, with a line twice, with two lines about one place or with a
foreign key it is refused, whatever the other lines are. -/
theorem ofText_exact :
    (∀ m : Manifest, (∃ text, m.WrittenAs text) ∧
      ∀ text, m.WrittenAs text → ofText text = .ok m) ∧
    (∀ text lines, Toml.Assigns lines (Toml.skipMark text.toList) → ∀ m : Manifest,
      ofText text = .ok m ↔
        ∃ emit, emit.getD .listing = m.emit ∧ lines.Perm (m.settings emit)) ∧
    (∀ text before line after lines key value,
      Toml.skipMark text.toList = before ++ (line ++ after) →
        Toml.Assigns lines before → before = [] ∨ Toml.EndsLine before →
          Toml.Assigns [(key, value)] line → Toml.EndsLine line →
            key ∈ lines.map Prod.fst ∨ key ∉ keys → ∃ e, ofText text = .error e) ∧
    (∀ text m, ofText text = .ok m → ∃ ss, Toml.statements? (Toml.skipMark text.toList) = some ss ∧
      m.SaidBy (Toml.places [] ss)) ∧
    (∀ text ss, Toml.statements? (Toml.skipMark text.toList) = some ss →
      (∀ v, (["name"], some v) ∉ Toml.places [] ss) ∨
        (∀ v, (["input"], some v) ∉ Toml.places [] ss) ∨
          ¬ ss.Nodup ∨ ¬ ((Toml.places [] ss).map Prod.fst).Nodup ∨
            (∃ p ∈ Toml.places [] ss, Foreign p.1 p.2) →
      ∃ e, ofText text = .error e) ∧
    ∀ text before line after ss s,
      Toml.skipMark text.toList = before ++ (line ++ after) → Toml.Lines before ss →
        Toml.Lines line [s] →
          s ∈ ss ∨ s.place (ss.foldl Statement.opens []) ∈ (Toml.places [] ss).map Prod.fst ∨
            Foreign (s.place (ss.foldl Statement.opens [])) s.value? →
              ∃ e, ofText text = .error e := by
  refine ⟨fun m ↦ ⟨exists_writtenAs m, fun text ↦ WrittenAs.ofText_eq⟩,
    fun text lines assigns m ↦ ofText_eq_ok_iff_of_assigns assigns,
    fun text before line after lines key value ↦ exists_error_of_setting,
    fun text m ↦ saidBy_of_ofText, fun text ss said wrong ↦ ?_,
    fun text before line after ss s ↦ exists_error_of_line⟩
  refine exists_error_of_statements said fun m saidBy ↦ ?_
  rcases wrong with noName | noInput | again | again | ⟨p, mem, foreign⟩
  · exact noName _ saidBy.name
  · exact noInput _ saidBy.input
  · exact again saidBy.nodup
  · exact again saidBy.distinct
  · exact (saidBy.agree p mem).not_foreign foreign

/-- Escapes, comments and blank lines make no difference, and each reason to refuse a document
occurs. -/
theorem ofText_exact_samples :
    ofText "# x\ninput = \"\\\"\\x69\" # x\n\nname = \"n\"" = .ok ⟨"n", ⟨"\"i"⟩, none, .listing⟩ ∧
      (∃ ss, Toml.statements? "# x\ninput = \"\\\"\\x69\" # x\n\nname = \"n\"".toList = some ss ∧
        SaidBy ⟨"n", ⟨"\"i"⟩, none, .listing⟩ (Toml.places [] ss)) ∧
      (¬ ∃ m, ofText "name = \"n\"\ntitle = \"n\"\n" = .ok m) ∧
      (∃ e, ofText "name = \"n\"\ntitle = \"n\"\n\n= ?" = .error e) ∧
      (∃ e, ofText "input = \"\\\"\\x69\"\n" = .error e) ∧
      (∃ e, ofText "name = \"n\"\nname = \"n\"\n\n= ?" = .error e) ∧
      ∃ e, ofText "emit.json = 1\n\n= ?" = .error e := by
  obtain ⟨written, exact', refused, said, missing, refused'⟩ := ofText_exact
  have empty : ∀ b ∈ ([] : List Char), Toml.isBlank b = true := by simp
  have blank : ∀ b ∈ [' '], Toml.isBlank b = true := List.all_eq_true.1 rfl
  have comment : ∀ c ∈ " x".toList, Toml.isPlain c = true := List.all_eq_true.1 rfl
  have n : Toml.Spells "n".toList "n".toList := Toml.spells_self rfl
  have digits : List.Forall₂ Text.HexDigit [6, 9] ['6', '9'] :=
    .cons (by decide) (.cons (by decide) .nil)
  have i : Toml.Spells "\"i".toList "\\\"\\x69".toList :=
    .short (by decide) (.numbered (by decide) digits rfl .nil)
  have name : Toml.SpellsSetting "name" "n" "name = \"n\"".toList :=
    Toml.spellsSetting_of_word (by decide) rfl n
  have title : Toml.SpellsSetting "title" "n" "title = \"n\"".toList :=
    Toml.spellsSetting_of_word (by decide) rfl n
  have input : Toml.SpellsSetting "input" "\"i" "input = \"\\\"\\x69\"".toList :=
    Toml.spellsSetting_of_word (by decide) rfl i
  have line {key value : String} {l : List Char} (setting : Toml.SpellsSetting key value l) :
      Toml.Assigns [(key, value)] (l ++ ([] ++ (['\n'] ++ []))) :=
    .line setting (.bare empty) (.feed []) .nil
  have manifest : WrittenAs ⟨"n", ⟨"\"i"⟩, none, .listing⟩
      "# x\ninput = \"\\\"\\x69\" # x\n\nname = \"n\"" :=
    ⟨none, _, rfl, .swap _ _ _, .pass (.comment empty comment) (.feed _) <|
      .line input (.comment blank comment) (.feed _) <|
        .pass (.bare empty) (.feed _) <| .line name (.bare empty) .text .nil⟩
  have foreign : Toml.Assigns [("name", "n"), ("title", "n")]
      "name = \"n\"\ntitle = \"n\"\n".toList :=
    .line name (.bare empty) (.feed _) (line title)
  obtain ⟨s, v, place, value, filled, format⟩ := exists_filled_format
  refine ⟨(written _).2 _ manifest, ?_, ?_, ?_, ?_, ?_, ?_⟩
  · exact said _ _ ((written _).2 _ manifest)
  · rintro ⟨m, read⟩
    obtain ⟨emit, -, perm⟩ := (exact' _ _ foreign m).1 read
    have mem : ("title", "n") ∈ m.settings emit := perm.mem_iff.1 (by simp)
    simp [mem_settings_iff] at mem
  · exact refused _ _ _ "\n= ?".toList _ _ _ rfl (line name) (.inr rfl) (line title) rfl
      (.inr (by decide))
  · exact missing _ _ (line input).statements?_eq
      (.inl (by simp [Toml.places, Statement.place, Toml.DottedKey.parts]))
  · exact refused' _ _ _ "\n= ?".toList _ _ rfl ((line name).lines (.inr rfl))
      ((line name).lines (.inr rfl)) (.inl (by simp))
  · refine refused' _ [] _ "\n= ?".toList [] s rfl ⟨Toml.statements?_nil rfl, .inl rfl⟩ format
      (.inr (.inr ?_))
    rw [List.foldl_nil, place, value]
    exact ⟨by decide, fun _ ↦ ⟨v, rfl, filled⟩⟩

theorem ofText_emit_table :
    Toml.key? "emit.json = \x7b\x7d".toList = some (⟨["emit"], "json"⟩, "= \x7b\x7d".toList) ∧
      "emit.json" ∉ keys ∧ ["emit", "json"] ∉ keys.map ([·]) ∧
        ofText "name = \"n\"\ninput = \"i\"\n" = .ok ⟨"n", ⟨"i"⟩, none, .listing⟩ ∧
          ofText ("name = \"n\"\ninput = \"i\"\n" ++ "emit.json = \x7b\x7d\n") =
            .ok ⟨"n", ⟨"i"⟩, none, .json⟩ := by
  have name : Toml.SpellsSetting "name" "n" "name = \"n\"".toList :=
    Toml.spellsSetting_of_word (by decide) rfl (Toml.spells_self rfl)
  have input : Toml.SpellsSetting "input" "i" "input = \"i\"".toList :=
    Toml.spellsSetting_of_word (by decide) rfl (Toml.spells_self rfl)
  have margin : Toml.Margin [] := .bare (by simp)
  have written : WrittenAs ⟨"n", ⟨"i"⟩, none, .listing⟩ "name = \"n\"\ninput = \"i\"\n" :=
    ⟨none, _, rfl, .refl _, .line name margin (.feed _) (.line input margin (.feed _) .nil)⟩
  exact ⟨by decide +kernel, by decide, by decide, written.ofText_eq,
    ofText_of_views (by decide +kernel)⟩

end FlatDecls.Manifest
