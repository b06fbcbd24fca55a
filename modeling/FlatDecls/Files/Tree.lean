import FlatDecls.Files.Path

/-!
# Trees of files

A directory holds files and directories, each under a name of its own. What a tree holds is
found at locations, the lists of names on the way from the root.

## Main statements

* `Directory.find?_set`: setting a name changes what stands under it and nothing else.
* `FileTree.find?_put`: what is put at a location is found there.
-/

namespace FlatDecls

/-- The names on the way from the root. -/
abbrev Location := List String

/-- The path of a location. -/
def Location.path (loc : Location) : Path := ⟨"/" ++ "/".intercalate loc⟩

mutual

/-- What stands at a location. A file's bytes may be no text. -/
inductive FileTree
  | file (text : Option String)
  | directory (d : Directory)

/-- What a directory holds; of two entries with one name the first counts. -/
structure Directory where
  entries : List (String × FileTree)

end

/-! ### Looking -/

namespace Directory

/-- A directory that holds nothing. -/
def empty : Directory := ⟨[]⟩

/-- What the directory holds under a name. -/
def find? (d : Directory) (name : String) : Option FileTree := d.entries.lookup name

end Directory

/-- What stands at a location in a tree. -/
def FileTree.find? : FileTree → Location → Option FileTree
  | t, [] => some t
  | file _, _ :: _ => none
  | directory d, name :: rest => (d.find? name).bind (·.find? rest)

/-! ### Changing -/

namespace Directory

/-- The same directory with this under a name. -/
def set (d : Directory) (name : String) (t : FileTree) : Directory :=
  ⟨(name, t) :: d.entries.filter (·.1 != name)⟩

/-- The directory under a name, as if it were empty where there is none. -/
def directory (d : Directory) (name : String) : Directory :=
  match d.find? name with
  | some (.directory inner) => inner
  | _ => empty

/-- The same directory with this at a location below it; missing directories on the way are
made. The directory itself stays what it is. -/
def put : Directory → Location → FileTree → Directory
  | d, [], _ => d
  | d, [name], t => d.set name t
  | d, name :: next :: rest, t =>
    d.set name (.directory ((d.directory name).put (next :: rest) t))

/-- Setting a name changes what stands under it and nothing else. -/
theorem find?_set (d : Directory) (name other : String) (t : FileTree) :
    (d.set name t).find? other = if other = name then some t else d.find? other := by
  obtain ⟨entries⟩ := d
  simp only [find?, set, List.lookup_cons]
  by_cases h : other = name
  · simp [h]
  · simp only [h, beq_false_of_ne h, if_false]
    induction entries with
    | nil => rfl
    | cons e rest ih =>
      obtain ⟨key, value⟩ := e
      by_cases hk : key = name
      · simp [hk, ih, List.lookup_cons, beq_false_of_ne h]
      · by_cases ho : other = key <;> simp_all [List.lookup_cons]

end Directory

/-- What is put at a location is found there. -/
theorem FileTree.find?_put {loc : Location} (h : loc ≠ []) (d : Directory) (t : FileTree) :
    (directory (d.put loc t)).find? loc = some t := by
  fun_induction Directory.put d loc t with
  | case1 => contradiction
  | case2 d name t => simp [find?, Directory.find?_set]
  | case3 d name next rest t ih =>
    rw [find?, Directory.find?_set, if_pos rfl, Option.bind_some]
    exact ih (by simp)

/-! ### Listing -/

mutual

/-- The files of a tree with their locations. -/
def FileTree.files : FileTree → List (Location × Option String)
  | .file text => [([], text)]
  | .directory ⟨entries⟩ => filesOf entries

/-- The files of a list of entries with their locations. -/
def filesOf : List (String × FileTree) → List (Location × Option String)
  | [] => []
  | (name, t) :: rest => (t.files.map fun (loc, text) ↦ (name :: loc, text)) ++ filesOf rest

end

end FlatDecls
