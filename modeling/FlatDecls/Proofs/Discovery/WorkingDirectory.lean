import FlatDecls.Proofs.Discovery.Nearest

/-!
# Discovery and the working directory

The way up from a relative path ends at the working directory, while that from the same path written
behind the working directory goes on up to the root. So the second search finds what the first one
finds, and if this is nothing, the nearest manifest above the working directory
(`FileSystem.manifestFrom_join`). Both agree for a path exactly if it is absolute, or the first
search finds something, or there is no manifest above (`FileSystem.manifestFrom_join_eq_iff`).
-/

namespace FlatDecls

namespace FileSystem

variable {fs : FileSystem} {cwd : Location} {p : Path}

/-- The location of the manifest that is found from a path. -/
def manifestFrom (fs : FileSystem) (cwd : Location) (start : Path) : Option Location :=
  ((Project.findManifest start : StateM Machine _).run ⟨fs, cwd⟩).1.bind (fs.fileOf cwd)

/-- The location of the manifest in the directory to which segments lead from `front`. -/
def manifestIn (fs : FileSystem) (front segments : List String) : Option Location :=
  if nulFree segments then fs.fileAt (front ++ segments ++ ["flatgen.toml"]) else none

/-- The location of the nearest manifest above a directory. -/
def manifestAbove (fs : FileSystem) (loc : Location) : Option Location :=
  loc.inits.dropLast.reverse.findSome? (fs.manifestIn [])

/-! ### A search as a search of components -/

/-- Looking for the first element with a result and then taking it is looking for the first
result. -/
theorem find?_isSome_bind {α β : Type} (f : α → Option β) (l : List α) :
    (l.find? fun x ↦ (f x).isSome).bind f = l.findSome? f := by
  induction l with
  | nil => rfl
  | cons x l ih =>
    rw [List.find?_cons, List.findSome?_cons]
    cases found : f x with
    | none => simpa using ih
    | some y => simpa using found

theorem findSome?_congr {α β : Type} {f g : α → Option β} {l : List α} (h : ∀ x ∈ l, f x = g x) :
    l.findSome? f = l.findSome? g := by
  induction l with
  | nil => rfl
  | cons x l ih =>
    have ⟨first, others⟩ := List.forall_mem_cons.1 h
    rw [List.findSome?_cons, List.findSome?_cons, first, ih others]

/-- A directory on the way up is shown from where the search begins, and by no longer text. -/
theorem forall_ancestors_of_beginsAt {m : Machine} {start first : Path}
    (begins : Project.BeginsAt m start first) : ∀ d ∈ first.ancestors,
      d.isAbsolute = start.isAbsolute ∧ d.text.utf8ByteSize ≤ start.text.utf8ByteSize := by
  refine Path.forall_ancestors ?_ fun a b ⟨absolute, bytes⟩ up ↦
    ⟨(Path.isAbsolute_parent up).trans absolute, (Path.utf8ByteSize_parent up).trans bytes⟩
  by_cases file : m.NamesFile start
  · have up := begins.file file
    exact ⟨Path.isAbsolute_parent up, Path.utf8ByteSize_parent up⟩
  · rw [begins.other file]
    exact ⟨rfl, Nat.le_refl _⟩

/-- The manifest in a directory depends on the directory's components. -/
theorem fileOf_join_manifestName (fs : FileSystem) (cwd : Location) {d : Path}
    (fits : d.text.utf8ByteSize + Project.manifestName.text.utf8ByteSize + 1 < pathLimit) :
    fs.fileOf cwd (d.join Project.manifestName) = fs.manifestIn (d.base cwd) d.components := by
  have relative : Project.manifestName.isAbsolute = false := rfl
  have components : (d.join Project.manifestName).components = d.components ++ ["flatgen.toml"] :=
    Path.components_join relative
  have base : (d.join Project.manifestName).base cwd = d.base cwd := by
    rw [Path.base, Path.isAbsolute_join relative, Path.base]
  have ends : (d.join Project.manifestName).endsBusy = true := Path.endsBusy_join relative
  have plain : nulFree ["flatgen.toml"] = true := rfl
  have bytes := d.utf8ByteSize_join Project.manifestName
  rw [fs.fileOf_eq cwd (by omega), base, ends, components, nulFree_append, plain, Bool.and_true,
    Bool.and_true, ← List.append_assoc, manifestIn]

/-- The search looks through the beginnings of the components that it begins with. -/
theorem manifestFrom_eq {first : Path} (begins : Project.BeginsAt ⟨fs, cwd⟩ p first)
    (fits : p.text.utf8ByteSize + Project.manifestName.text.utf8ByteSize + 1 < pathLimit) :
    fs.manifestFrom cwd p =
      first.components.inits.reverse.findSome? (fs.manifestIn (p.base cwd)) := by
  obtain ⟨first', begins', run⟩ := Project.run_findManifest ⟨fs, cwd⟩ p
  obtain rfl := begins.unique begins'
  have each : ∀ d ∈ first.ancestors, fs.fileOf cwd (d.join Project.manifestName) =
      fs.manifestIn (p.base cwd) d.components := by
    intro d mem
    obtain ⟨absolute, bytes⟩ := forall_ancestors_of_beginsAt begins d mem
    rw [fileOf_join_manifestName fs cwd (by omega), Path.base, absolute, Path.base]
  have search := find?_isSome_bind (fun d ↦ fs.fileOf cwd (d.join Project.manifestName))
    first.ancestors
  rw [manifestFrom, run, Option.bind_map, ← Path.findSome?_ancestors, ← findSome?_congr each,
    ← search]
  simp only [isFile_eq, Function.comp_def]

/-! ### Beginnings -/

/-- The proper beginnings of a list are the empty one and those that start with its first
element. -/
theorem inits_dropLast_cons {α : Type} (x : α) (xs : List α) :
    (x :: xs).inits.dropLast = [] :: xs.inits.dropLast.map (x :: ·) := by
  have some : xs.inits.map (x :: ·) ≠ [] := by simp [← List.length_eq_zero_iff]
  rw [List.inits_cons, List.dropLast_cons_of_ne_nil some, List.map_dropLast]

/-- The beginnings of a list that goes on are the shorter ones of the first part, and then those
that go on with a beginning of the second. -/
theorem inits_append_eq {α : Type} (xs ys : List α) :
    (xs ++ ys).inits = xs.inits.dropLast ++ ys.inits.map (xs ++ ·) := by
  induction xs with
  | nil => simp [List.inits]
  | cons x xs ih =>
    rw [List.cons_append, List.inits_cons, ih, inits_dropLast_cons, List.map_append]
    simp

theorem mem_dropLast_inits {α : Type} {l xs : List α} :
    l ∈ xs.inits.dropLast ↔ l <+: xs ∧ l ≠ xs := by
  induction xs generalizing l with
  | nil => simp [List.inits]
  | cons x xs ih =>
    rw [inits_dropLast_cons, List.mem_cons, List.mem_map]
    cases l with
    | nil => simp
    | cons y l =>
      simp only [reduceCtorEq, false_or, List.cons.injEq, ih, List.cons_prefix_cons]
      constructor
      · rintro ⟨l, ⟨begins, other⟩, rfl, rfl⟩
        exact ⟨⟨rfl, begins⟩, fun same ↦ other (List.cons.inj same).2⟩
      · rintro ⟨⟨rfl, begins⟩, other⟩
        exact ⟨l, ⟨begins, fun same ↦ other (congrArg _ same)⟩, rfl, rfl⟩

/-! ### From the working directory -/

theorem nulFree_of_names (names : ∀ s ∈ cwd, IsFileName s) : nulFree cwd = true := by
  simpa [nulFree] using fun s mem ↦ (names s mem).noNul

theorem base_of_relative (relative : p.isAbsolute = false) : p.base cwd = cwd := by
  rw [Path.base, relative]
  rfl

/-- Joined to the absolute working directory a relative path is absolute. -/
theorem base_path_join (relative : p.isAbsolute = false) : (cwd.path.join p).base cwd = [] := by
  rw [Path.base, Path.isAbsolute_join relative, Location.isAbsolute_path, if_pos rfl]

section Relative

variable (names : ∀ s ∈ cwd, IsFileName s) (relative : p.isAbsolute = false)

include names relative

/-- Its components are those of the working directory and then its own. -/
theorem components_path_join : (cwd.path.join p).components = cwd ++ p.components := by
  rw [Path.components_join relative, Location.components_path names]

/-- Behind the path of the working directory, a relative path leads to the same file. -/
theorem fileOf_path_join (fs : FileSystem)
    (fits : (cwd.path.join p).text.utf8ByteSize < pathLimit) :
    fs.fileOf cwd (cwd.path.join p) = fs.fileOf cwd p := by
  have bytes := cwd.path.utf8ByteSize_le_join p
  rw [fs.fileOf_eq cwd fits, fs.fileOf_eq cwd (by omega), components_path_join names relative,
    Path.endsBusy_join relative, nulFree_append, nulFree_of_names names, Bool.true_and,
    base_path_join relative, base_of_relative relative, List.nil_append]

/-- Both searches begin at the same place. -/
theorem components_of_beginsAt {first behind : Path}
    (fits : (cwd.path.join p).text.utf8ByteSize < pathLimit)
    (begins : Project.BeginsAt ⟨fs, cwd⟩ p first)
    (begins' : Project.BeginsAt ⟨fs, cwd⟩ (cwd.path.join p) behind) :
    behind.components = cwd ++ first.components := by
  have same : Machine.NamesFile ⟨fs, cwd⟩ (cwd.path.join p) ↔ Machine.NamesFile ⟨fs, cwd⟩ p := by
    rw [← Machine.isFile_iff, ← Machine.isFile_iff, isFile_eq, isFile_eq,
      fileOf_path_join names relative fs fits]
  by_cases file : Machine.NamesFile ⟨fs, cwd⟩ p
  · have some : p.components ≠ [] := by
      rw [← Machine.isFile_iff, isFile_eq] at file
      exact components_ne_nil_of_fileOf file
    rw [Path.components_parent (begins.file file),
      Path.components_parent (begins'.file (same.2 file)),
      components_path_join names relative, List.dropLast_append_of_ne_nil some]
  · rw [begins.other file, begins'.other (mt same.1 file), components_path_join names relative]

/-- From a path behind the working directory, the search finds what it finds from the path alone,
and if this is nothing, the nearest manifest above the working directory. -/
theorem manifestFrom_join (fs : FileSystem)
    (fits : (cwd.path.join p).text.utf8ByteSize + Project.manifestName.text.utf8ByteSize + 1 <
      pathLimit) :
    fs.manifestFrom cwd (cwd.path.join p) = (fs.manifestFrom cwd p).or (fs.manifestAbove cwd) := by
  obtain ⟨first, begins, -⟩ := Project.run_findManifest ⟨fs, cwd⟩ p
  obtain ⟨behind, begins', -⟩ := Project.run_findManifest ⟨fs, cwd⟩ (cwd.path.join p)
  have bytes := cwd.path.utf8ByteSize_le_join p
  have here (segments : List String) :
      fs.manifestIn [] (cwd ++ segments) = fs.manifestIn cwd segments := by
    rw [manifestIn, manifestIn, nulFree_append, nulFree_of_names names, Bool.true_and,
      List.nil_append]
  rw [manifestFrom_eq begins' fits, manifestFrom_eq begins (by omega), base_path_join relative,
    base_of_relative relative, components_of_beginsAt names relative (by omega) begins begins',
    inits_append_eq, List.reverse_append, List.findSome?_append, ← List.map_reverse,
    List.findSome?_map, manifestAbove]
  exact congrArg (Option.or · _) (findSome?_congr fun segments _ ↦ here segments)

end Relative

/-- There is no manifest above the working directory if none of the directories on the way to it has
one. -/
theorem manifestAbove_eq_none_iff (fs : FileSystem) (names : ∀ s ∈ cwd, IsFileName s) :
    fs.manifestAbove cwd = none ↔
      ∀ above, above <+: cwd → above ≠ cwd → ¬ fs.HasFile (above ++ ["flatgen.toml"]) := by
  have one (above : Location) (begins : above <+: cwd) :
      fs.manifestIn [] above = none ↔ ¬ fs.HasFile (above ++ ["flatgen.toml"]) := by
    have some : ∀ s ∈ above, IsFileName s := fun s mem ↦ names s (begins.subset mem)
    have all : ∀ s ∈ above ++ ["flatgen.toml"], IsName s := by
      rw [List.forall_mem_append]
      refine ⟨fun s mem ↦ (some s mem).name, fun s mem ↦ ?_⟩
      rw [List.mem_singleton.1 mem]
      exact ⟨by decide, by decide, by decide, by decide⟩
    rw [manifestIn, nulFree_of_names some, if_pos rfl, List.nil_append, fileAt_names fs all]
  simp only [manifestAbove, List.findSome?_eq_none_iff, List.mem_reverse, mem_dropLast_inits,
    and_imp]
  exact forall_congr' fun above ↦ forall_congr' fun begins ↦
    imp_congr_right fun _ ↦ one above begins

/-- The search from a path finds the same from the path behind the working directory exactly if the
path is absolute anyway, or it finds something, or there is no manifest above the working directory
to be found. -/
theorem manifestFrom_join_eq_iff (fs : FileSystem) (names : ∀ s ∈ cwd, IsFileName s)
    (fits : (cwd.path.join p).text.utf8ByteSize + Project.manifestName.text.utf8ByteSize + 1 <
      pathLimit) :
    fs.manifestFrom cwd (cwd.path.join p) = fs.manifestFrom cwd p ↔
      p.isAbsolute ∨ (fs.manifestFrom cwd p).isSome ∨
        ∀ above, above <+: cwd → above ≠ cwd → ¬ fs.HasFile (above ++ ["flatgen.toml"]) := by
  cases relative : p.isAbsolute with
  | true => simp [Path.join_of_isAbsolute relative]
  | false =>
    rw [manifestFrom_join names relative fs fits, ← manifestAbove_eq_none_iff fs names]
    cases fs.manifestFrom cwd p <;> simp

/-- A manifest in the directory above that of an input. -/
def manifestOutside : FileSystem :=
  ⟨⟨[("d", .directory ⟨[
    ("flatgen.toml", .file (some "name = \"n\"\ninput = \"e/x.json\"\nemit = \"json\"\n")),
    ("e", .directory ⟨[("x.json", .file (some "{}"))]⟩)]⟩)]⟩⟩

/-- From the directory of the manifest the input leads to it, with that directory in front or
without. -/
theorem manifestOutside_found :
    (∀ s ∈ ["d"], IsFileName s) ∧
      ((Location.path ["d"]).join ⟨"e/x.json"⟩).text.utf8ByteSize +
        Project.manifestName.text.utf8ByteSize + 1 < pathLimit ∧
      manifestOutside.manifestFrom ["d"] ((Location.path ["d"]).join ⟨"e/x.json"⟩) =
        manifestOutside.manifestFrom ["d"] ⟨"e/x.json"⟩ := by
  have names : ∀ s ∈ ["d"], IsFileName s := by
    rintro s (_ | ⟨_, ⟨⟩⟩)
    exact ⟨⟨by decide, by decide, by decide, by decide⟩, by simp, by simp⟩
  have fits : ((Location.path ["d"]).join ⟨"e/x.json"⟩).text.utf8ByteSize +
      Project.manifestName.text.utf8ByteSize + 1 < pathLimit := by decide +kernel
  have found : (manifestOutside.manifestFrom ["d"] ⟨"e/x.json"⟩).isSome := by decide +kernel
  exact ⟨names, fits, (manifestFrom_join_eq_iff manifestOutside names fits).2 (.inr (.inl found))⟩

/-- In the directory of the input, the input alone does not lead to the manifest above. -/
theorem manifestOutside_missed :
    manifestOutside.manifestFrom ["d", "e"] ((Location.path ["d", "e"]).join ⟨"x.json"⟩) =
        some ["d", "flatgen.toml"] ∧
      manifestOutside.manifestFrom ["d", "e"] ⟨"x.json"⟩ = none := by
  decide +kernel

end FileSystem

end FlatDecls
