import FlatDecls.Json.Token
import FlatDecls.Manifest

/-!
# What the keys of a manifest say

The keys of a document make up a manifest exactly if they are keys of manifests, with the manifest's
name and paths behind theirs and a form of its format behind `emit`, which may be left out like the
output (`Manifest.DescribedBy`). The order of the keys does not matter, since no key stands there
twice (`Manifest.ofEntries_eq_ok_iff`).
-/

namespace FlatDecls.Manifest

open Json (eq_ok_of_bind)
open Toml (Value)

variable {key : String} {v : Value} {es : List (String × Value)} {m : Manifest}

/-! ### One key -/

namespace Draft

variable {d d' : Draft}

/-- What a draft becomes with one more key. -/
inductive Adds (d : Draft) : String → Value → Draft → Prop
  | name (s : String) : Adds d "name" (.string s) { d with name := some s }
  | input (path : Path) : Adds d "input" (.string path.text) { d with input := some path }
  | output (path : Path) : Adds d "output" (.string path.text) { d with output := some path }
  | emit {v : Value} {f : EmitFormat} (means : emitValue v = .ok f) :
      Adds d "emit" v { d with emit := some f }

/-- Only a text is taken for a text. -/
theorem eq_string_of_text {expected s : String} (h : text expected v = .ok s) : v = .string s := by
  cases v with
  | string t => rw [Except.ok.inj h]
  | _ => cases h

theorem eq_string_of_path {p : Path} (h : path v = .ok p) : v = .string p.text := by
  cases v with
  | string t => rw [← Except.ok.inj h]
  | _ => cases h

/-- A reading step succeeds exactly if it adds what its entry says. -/
theorem read_eq_ok_iff : d.read key v = .ok d' ↔ d.Adds key v d' := by
  constructor
  · intro h
    unfold read at h
    split at h
    · obtain ⟨s, read, same⟩ := eq_ok_of_bind h
      obtain rfl := Except.ok.inj same
      exact eq_string_of_text read ▸ .name s
    · obtain ⟨p, read, same⟩ := eq_ok_of_bind h
      obtain rfl := Except.ok.inj same
      exact eq_string_of_path read ▸ .input p
    · obtain ⟨p, read, same⟩ := eq_ok_of_bind h
      obtain rfl := Except.ok.inj same
      exact eq_string_of_path read ▸ .output p
    · obtain ⟨f, read, same⟩ := eq_ok_of_bind h
      obtain rfl := Except.ok.inj same
      exact .emit read
    · cases h
  · intro h
    cases h with
    | name | input | output => rfl
    | emit means =>
      rw [read, means]
      rfl

/-- The draft holds what a key with this value says. -/
def Holds (d : Draft) (key : String) (v : Value) : Prop :=
  key = "name" ∧ (∃ s, d.name = some s ∧ v = .string s) ∨
    key = "input" ∧ (∃ path, d.input = some path ∧ v = .string path.text) ∨
      key = "output" ∧ (∃ path, d.output = some path ∧ v = .string path.text) ∨
        key = "emit" ∧ ∃ f, d.emit = some f ∧ emitValue v = .ok f

@[simp]
theorem holds_name : d.Holds "name" v ↔ ∃ s, d.name = some s ∧ v = .string s := by
  simp [Holds]

@[simp]
theorem holds_input : d.Holds "input" v ↔ ∃ path, d.input = some path ∧ v = .string path.text := by
  simp [Holds]

@[simp]
theorem holds_output :
    d.Holds "output" v ↔ ∃ path, d.output = some path ∧ v = .string path.text := by
  simp [Holds]

@[simp]
theorem holds_emit : d.Holds "emit" v ↔ ∃ f, d.emit = some f ∧ emitValue v = .ok f := by
  simp [Holds]

theorem Holds.mem_keys (h : d.Holds key v) : key ∈ keys := by
  rcases h with ⟨rfl, -⟩ | ⟨rfl, -⟩ | ⟨rfl, -⟩ | ⟨rfl, -⟩
  all_goals decide

/-- What is added is there afterwards. -/
theorem Adds.holds (h : d.Adds key v d') : d'.Holds key v := by
  cases h with
  | name | input | output => simp
  | emit means => simpa using means

/-- What other keys say stays. -/
theorem Adds.holds_iff (h : d.Adds key v d') {other : String} (ne : other ≠ key) (w : Value) :
    d'.Holds other w ↔ d.Holds other w := by
  cases h with
  | name | input | output | emit => simp [Holds, ne]

/-- What one draft holds can be added to any other. -/
theorem Holds.exists_adds (h : d.Holds key v) (d' : Draft) : ∃ d'', d'.Adds key v d'' := by
  rcases h with ⟨rfl, s, -, rfl⟩ | ⟨rfl, path, -, rfl⟩ | ⟨rfl, path, -, rfl⟩ | ⟨rfl, f, -, means⟩
  · exact ⟨_, .name s⟩
  · exact ⟨_, .input path⟩
  · exact ⟨_, .output path⟩
  · exact ⟨_, .emit means⟩

/-! ### All keys -/

/-- Reads all keys of a document. -/
theorem holds_run (h : es.foldlM (fun d (key, v) ↦ d.read key v) d = .ok d')
    (distinct : (es.map Prod.fst).Nodup) :
    (∀ e ∈ es, d'.Holds e.1 e.2) ∧
      ∀ other ∉ es.map Prod.fst, ∀ w, d'.Holds other w ↔ d.Holds other w := by
  induction es generalizing d with
  | nil =>
    obtain rfl := Except.ok.inj h
    simp
  | cons e es ih =>
    obtain ⟨key, v⟩ := e
    rw [List.map_cons, List.nodup_cons] at distinct
    obtain ⟨mid, first, rest⟩ := eq_ok_of_bind (List.foldlM_cons.symm.trans h)
    obtain ⟨later, kept⟩ := ih rest distinct.2
    have added := read_eq_ok_iff.1 first
    refine ⟨?_, fun other missing w ↦ ?_⟩
    · rw [List.forall_mem_cons]
      exact ⟨(kept key distinct.1 v).2 added.holds, later⟩
    · rw [List.map_cons, List.mem_cons, not_or] at missing
      exact (kept other missing.2 w).trans (added.holds_iff missing.1 w)

/-- Entries that some draft holds can be read from any draft on, since no entry is refused for what
the others say. -/
theorem exists_run (h : ∀ e ∈ es, ∃ d : Draft, d.Holds e.1 e.2) (d : Draft) :
    ∃ d', es.foldlM (fun d (key, v) ↦ d.read key v) d = .ok d' := by
  induction es generalizing d with
  | nil => exact ⟨d, rfl⟩
  | cons e es ih =>
    obtain ⟨key, v⟩ := e
    rw [List.forall_mem_cons] at h
    obtain ⟨⟨_, holds⟩, later⟩ := h
    obtain ⟨mid, added⟩ := holds.exists_adds d
    obtain ⟨d', rest⟩ := ih later mid
    refine ⟨d', ?_⟩
    rw [List.foldlM_cons]
    show d.read key v >>= _ = _
    rw [read_eq_ok_iff.2 added]
    exact rest

/-- A draft makes a manifest if it has a name and an input; an output may be absent, and the listing
is the default format. -/
theorem finish_eq_ok_iff : d.finish = .ok m ↔
    d.name = some m.name ∧ d.input = some m.input ∧ d.output = m.output ∧
      d.emit.getD .listing = m.emit := by
  obtain ⟨name, input, output, emit⟩ := d
  obtain ⟨name', input', output', emit'⟩ := m
  cases name <;> cases input <;> simp [finish]

/-- Only a key that was read is held. -/
theorem Holds.exists_mem (h : d.Holds key v)
    (others : ∀ other ∉ es.map Prod.fst, ∀ w, d.Holds other w ↔ Holds {} other w) :
    ∃ w, (key, w) ∈ es := by
  by_cases read : key ∈ es.map Prod.fst
  · obtain ⟨⟨_, w⟩, mem, rfl⟩ := List.mem_map.1 read
    exact ⟨w, mem⟩
  · exact absurd ((others key read v).1 h) (by simp [Holds])

end Draft

/-! ### The manifest -/

/-- What the entries of a document must be to make up a manifest. -/
structure DescribedBy (m : Manifest) (es : List (String × Value)) : Prop where
  known : ∀ e ∈ es, e.1 ∈ keys
  name : ∀ v, ("name", v) ∈ es ↔ v = .string m.name
  input : ∀ v, ("input", v) ∈ es ↔ v = .string m.input.text
  output : ∀ v, ("output", v) ∈ es ↔ ∃ path, m.output = some path ∧ v = .string path.text
  emit : ∀ v, ("emit", v) ∈ es → emitValue v = .ok m.emit
  default : "emit" ∉ es.map Prod.fst → m.emit = .listing

/-- The name of a format is understood. -/
theorem emitValue_name (f : EmitFormat) : emitValue (.string f.name) = .ok f := by
  rw [emitValue, format, EmitFormat.ofName?_name]

/-- The entries in the order in which they are judged. -/
theorem mergeSort_perm (es : List (String × Value)) :
    (es.mergeSort fun a b ↦ a.1 ≤ b.1).Perm es :=
  List.mergeSort_perm _ _

/-- A manifest that was read is described by its entries, which have distinct keys. -/
theorem describedBy_of_ofEntries (distinct : (es.map Prod.fst).Nodup) (h : ofEntries es = .ok m) :
    m.DescribedBy es := by
  have perm := mergeSort_perm es
  obtain ⟨d, run, finished⟩ := eq_ok_of_bind h
  obtain ⟨holds, others⟩ := Draft.holds_run run ((perm.map Prod.fst).nodup_iff.2 distinct)
  simp only [perm.mem_iff, (perm.map Prod.fst).mem_iff] at holds others
  obtain ⟨name, input, output, emit⟩ := Draft.finish_eq_ok_iff.1 finished
  have isName (v : Value) (mem : ("name", v) ∈ es) : v = .string m.name := by
    obtain ⟨s, here, rfl⟩ := Draft.holds_name.1 (holds _ mem)
    rw [Option.some.inj (here.symm.trans name)]
  have isInput (v : Value) (mem : ("input", v) ∈ es) : v = .string m.input.text := by
    obtain ⟨path, here, rfl⟩ := Draft.holds_input.1 (holds _ mem)
    rw [Option.some.inj (here.symm.trans input)]
  have isOutput (v : Value) (mem : ("output", v) ∈ es) :
      ∃ path, m.output = some path ∧ v = .string path.text := by
    rw [← output]
    exact Draft.holds_output.1 (holds _ mem)
  refine ⟨fun e mem ↦ (holds e mem).mem_keys, fun v ↦ ⟨isName v, ?_⟩, fun v ↦ ⟨isInput v, ?_⟩,
    fun v ↦ ⟨isOutput v, ?_⟩, fun v mem ↦ ?_, fun missing ↦ ?_⟩
  · rintro rfl
    obtain ⟨w, mem⟩ := (Draft.holds_name.2 ⟨_, name, rfl⟩).exists_mem others
    exact isName w mem ▸ mem
  · rintro rfl
    obtain ⟨w, mem⟩ := (Draft.holds_input.2 ⟨_, input, rfl⟩).exists_mem others
    exact isInput w mem ▸ mem
  · rintro ⟨path, here, rfl⟩
    obtain ⟨w, mem⟩ := (Draft.holds_output.2 ⟨path, output.trans here, rfl⟩).exists_mem others
    obtain ⟨path', here', rfl⟩ := isOutput w mem
    obtain rfl := Option.some.inj (here.symm.trans here')
    exact mem
  · obtain ⟨f, here, means⟩ := Draft.holds_emit.1 (holds _ mem)
    rw [here] at emit
    exact means.trans (congrArg _ emit)
  · cases here : d.emit with
    | none =>
      rw [here] at emit
      exact emit.symm
    | some f =>
      obtain ⟨w, mem⟩ := (Draft.holds_emit.2 ⟨f, here, emitValue_name f⟩).exists_mem others
      exact absurd (List.mem_map_of_mem mem) missing

/-- The draft in which everything is said. -/
def draft (m : Manifest) : Draft :=
  { name := some m.name, input := some m.input, output := m.output, emit := some m.emit }

/-- The draft of a manifest holds everything that describes the manifest. -/
theorem DescribedBy.holds_draft (h : m.DescribedBy es) : ∀ e ∈ es, m.draft.Holds e.1 e.2 := by
  rintro ⟨key, v⟩ mem
  have known := h.known _ mem
  simp only [keys, List.mem_cons, List.not_mem_nil, or_false] at known
  rcases known with rfl | rfl | rfl | rfl
  · exact Draft.holds_name.2 ⟨_, rfl, (h.name v).1 mem⟩
  · exact Draft.holds_input.2 ⟨_, rfl, (h.input v).1 mem⟩
  · exact Draft.holds_output.2 ((h.output v).1 mem)
  · exact Draft.holds_emit.2 ⟨_, rfl, h.emit v mem⟩

/-- Entries that describe a manifest are read as this manifest, in whatever order they stand. -/
theorem ofEntries_of_describedBy (distinct : (es.map Prod.fst).Nodup) (h : m.DescribedBy es) :
    ofEntries es = .ok m := by
  have perm := mergeSort_perm es
  -- Every entry can be read, so all are; which manifest comes out is seen from what the last draft
  -- holds, in either direction.
  obtain ⟨d, run⟩ := Draft.exists_run (fun e mem ↦ ⟨_, h.holds_draft e (perm.mem_iff.1 mem)⟩) {}
  obtain ⟨holds, others⟩ := Draft.holds_run run ((perm.map Prod.fst).nodup_iff.2 distinct)
  simp only [perm.mem_iff, (perm.map Prod.fst).mem_iff] at holds others
  obtain ⟨s, name, sameName⟩ := Draft.holds_name.1 (holds _ ((h.name _).2 rfl))
  obtain ⟨p, input, sameInput⟩ := Draft.holds_input.1 (holds _ ((h.input _).2 rfl))
  have finished : d.finish = .ok m := by
    refine Draft.finish_eq_ok_iff.2 ⟨?_, ?_, ?_, ?_⟩
    · rw [name, Value.string.inj sameName]
    · rw [input]
      exact congrArg (some ∘ Path.mk) (Value.string.inj sameInput).symm
    · cases said : m.output with
      | some path =>
        have there := (h.output _).2 ⟨path, said, rfl⟩
        obtain ⟨q, output, same⟩ := Draft.holds_output.1 (holds _ there)
        rw [output]
        exact congrArg (some ∘ Path.mk) (Value.string.inj same).symm
      | none =>
        cases output : d.output with
        | none => rfl
        | some path =>
          obtain ⟨w, mem⟩ := (Draft.holds_output.2 ⟨path, output, rfl⟩).exists_mem others
          obtain ⟨q, said', -⟩ := (h.output w).1 mem
          cases said.symm.trans said'
    · cases emit : d.emit with
      | some f =>
        obtain ⟨w, mem⟩ := (Draft.holds_emit.2 ⟨f, emit, emitValue_name f⟩).exists_mem others
        obtain ⟨g, emit', means⟩ := Draft.holds_emit.1 (holds _ mem)
        obtain rfl := Option.some.inj (emit.symm.trans emit')
        exact Except.ok.inj (means.symm.trans (h.emit w mem))
      | none =>
        refine (h.default fun there ↦ ?_).symm
        obtain ⟨⟨_, w⟩, mem, rfl⟩ := List.mem_map.1 there
        obtain ⟨g, emit', -⟩ := Draft.holds_emit.1 (holds _ mem)
        cases emit.symm.trans emit'
  rw [ofEntries]
  show List.foldlM _ _ _ >>= _ = _
  rw [run]
  exact finished

theorem ofEntries_eq_ok_iff (distinct : (es.map Prod.fst).Nodup) :
    ofEntries es = .ok m ↔ m.DescribedBy es :=
  ⟨describedBy_of_ofEntries distinct, ofEntries_of_describedBy distinct⟩

end FlatDecls.Manifest
