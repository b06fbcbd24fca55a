import FlatDecls.Files.System

/-!
# What stands where

A file system seen from outside: at each location stands a file with its contents, a directory or
nothing (`FileSystem.standing?`). Putting a file or an empty directory where no directory stands
changes this at one location only (`FileSystem.standing?_put`), and whether a path leads somewhere
depends on nothing else (`FileSystem.reaches_iff`). So a path still leads to the same location when
more has come to stand (`FileSystem.Reaches.mono`).
-/

namespace FlatDecls

/-- What stands at a location; of a directory only that it is one. -/
inductive Standing
  | file (text : Option String)
  | directory
  deriving DecidableEq, Repr

/-- What stands at the top of a tree. -/
def FileTree.standing : FileTree → Standing
  | file text => .file text
  | directory _ => .directory

namespace FileSystem

/-- The tree at a location. -/
def find? (fs : FileSystem) (loc : Location) : Option FileTree :=
  (FileTree.directory fs.root).find? loc

/-- What stands at a location, if anything does. -/
def standing? (fs : FileSystem) (loc : Location) : Option Standing :=
  (fs.find? loc).map FileTree.standing

end FileSystem

/-! ### Trees -/

namespace FileTree

/-- Going down a long way is going down its two parts. -/
theorem find?_append (t : FileTree) (loc rest : Location) :
    t.find? (loc ++ rest) = (t.find? loc).bind (·.find? rest) := by
  induction loc generalizing t with
  | nil => rfl
  | cons name loc ih =>
    cases t with
    | file text => rfl
    | directory d =>
      rw [List.cons_append, find?, find?]
      cases d.find? name with
      | none => rfl
      | some t => exact ih t

/-- Nothing stands below this. -/
def Leaf (t : FileTree) : Prop := ∀ name rest, t.find? (name :: rest) = none

theorem leaf_file (text : Option String) : (file text).Leaf := fun _ _ ↦ rfl

theorem leaf_empty : (directory .empty).Leaf := fun _ _ ↦ rfl

/-- What is no directory is a file. -/
theorem leaf_of_standing_ne {t : FileTree} (h : t.standing ≠ .directory) : t.Leaf := by
  cases t with
  | file text => exact leaf_file text
  | directory d => exact absurd rfl h

/-- Directories stand in directories only. -/
theorem exists_directory_of_find? {t : FileTree} {loc : Location} {inner : Directory}
    (h : t.find? loc = some (directory inner)) : ∃ d, t = directory d := by
  cases t with
  | directory d => exact ⟨d, rfl⟩
  | file text =>
    cases loc with
    | nil => cases h
    | cons name rest => cases h

end FileTree

/-- What is put under a name at which no directory stands changes nothing but what stands there. -/
theorem Directory.standing_find?_put {d inner : Directory} {above : Location} {name : String}
    {t : FileTree} (leaf : t.Leaf)
    (dir : (FileTree.directory d).find? above = some (.directory inner))
    (free : ∀ u, inner.find? name = some u → u.Leaf) (other : Location) :
    ((FileTree.directory (d.put (above ++ [name]) t)).find? other).map FileTree.standing =
      if other = above ++ [name] then some t.standing
      else ((FileTree.directory d).find? other).map FileTree.standing := by
  induction above generalizing d other with
  | nil =>
    obtain rfl : d = inner := FileTree.directory.inj (Option.some.inj dir)
    rw [List.nil_append, put.eq_2]
    cases other with
    | nil => rfl
    | cons o rest =>
      rw [FileTree.find?, FileTree.find?, find?_set]
      by_cases same : o = name
      · subst same
        cases rest with
        | nil => simp [FileTree.find?]
        | cons next rest =>
          have nothing : ((d.find? o).bind (·.find? (next :: rest))) = none := by
            rw [Option.bind_eq_none_iff]
            exact fun u found ↦ free u found next rest
          simp [leaf next rest, nothing]
      · simp [same]
  | cons a above ih =>
    obtain ⟨first, found, below⟩ := Option.bind_eq_some_iff.1 dir
    obtain ⟨da, rfl⟩ := FileTree.exists_directory_of_find? below
    have nested : d.put (a :: above ++ [name]) t =
        d.set a (.directory (da.put (above ++ [name]) t)) := by
      have way : d.directory a = da := by rw [Directory.directory, found]
      cases above with
      | nil => rw [List.cons_append, List.nil_append, put.eq_3, way]
      | cons b above => rw [List.cons_append, List.cons_append, put.eq_3, way]
    rw [nested]
    cases other with
    | nil => rfl
    | cons o rest =>
      rw [FileTree.find?, FileTree.find?, find?_set]
      by_cases same : o = a
      · subst same
        simpa [found] using ih below rest
      · simp [same]

/-- What is put under a free name stands there. If it has nothing inside, then nothing else has
changed. -/
theorem FileSystem.standing?_put {fs : FileSystem} {above : Location} {name : String}
    {inner : Directory} {t : FileTree} (leaf : t.Leaf)
    (dir : fs.find? above = some (.directory inner))
    (free : inner.find? name |>.all (·.standing != .directory)) (other : Location) :
    (fs.put (above ++ [name]) t).standing? other =
      if other = above ++ [name] then some t.standing else fs.standing? other := by
  refine Directory.standing_find?_put leaf dir (fun u found ↦ ?_) other
  rw [found] at free
  exact FileTree.leaf_of_standing_ne (by simpa using free)

/-! ### Following a path -/

/-- Is this the name of something, and short enough? -/
def IsName (s : String) : Prop :=
  s ≠ "" ∧ s ≠ "." ∧ s ≠ ".." ∧ s.utf8ByteSize ≤ nameLimit

namespace FileSystem

/-- Segments lead from a location to another: each is seen from a directory. -/
inductive Leads (fs : FileSystem) : Location → List String → Location → Prop
  | done (loc : Location) : Leads fs loc [] loc
  | idle {loc goal : Location} {s : String} {rest : List String}
      (dir : fs.standing? loc = some .directory) (idle : s = "" ∨ s = ".")
      (next : Leads fs loc rest goal) : Leads fs loc (s :: rest) goal
  | up {loc goal : Location} {rest : List String} (dir : fs.standing? loc = some .directory)
      (next : Leads fs loc.dropLast rest goal) : Leads fs loc (".." :: rest) goal
  | down {loc goal : Location} {s : String} {rest : List String}
      (dir : fs.standing? loc = some .directory) (name : IsName s)
      (found : (fs.standing? (loc ++ [s])).isSome) (next : Leads fs (loc ++ [s]) rest goal) :
      Leads fs loc (s :: rest) goal

variable {fs fs' : FileSystem} {loc mid goal : Location} {segments rest : List String}

/-- Where something stood something stands, and where a directory stood a directory. -/
structure Keeps (fs fs' : FileSystem) : Prop where
  directory : ∀ l, fs.standing? l = some .directory → fs'.standing? l = some .directory
  present : ∀ l, (fs.standing? l).isSome → (fs'.standing? l).isSome

namespace Leads

/-- Where more has come to stand, segments lead where they led before. -/
theorem mono (h : fs.Leads loc segments goal) (keeps : fs.Keeps fs') :
    fs'.Leads loc segments goal := by
  induction h with
  | done loc => exact .done loc
  | idle dir idle _ ih => exact .idle (keeps.directory _ dir) idle ih
  | up dir _ ih => exact .up (keeps.directory _ dir) ih
  | down dir name found _ ih => exact .down (keeps.directory _ dir) name (keeps.present _ found) ih

/-- Segments that lead on may follow those that lead there. -/
theorem trans (first : fs.Leads loc segments mid) (second : fs.Leads mid rest goal) :
    fs.Leads loc (segments ++ rest) goal := by
  induction first with
  | done loc => exact second
  | idle dir idle _ ih => exact .idle dir idle (ih second)
  | up dir _ ih => exact .up dir (ih second)
  | down dir name found _ ih => exact .down dir name found (ih second)

/-- On the way along segments every cut is a place. -/
theorem exists_mid (h : fs.Leads loc (segments ++ rest) goal) :
    ∃ mid, fs.Leads loc segments mid ∧ fs.Leads mid rest goal := by
  induction segments generalizing loc with
  | nil => exact ⟨loc, .done loc, h⟩
  | cons s segments ih =>
    cases h with
    | idle dir idle next =>
      obtain ⟨mid, first, second⟩ := ih next
      exact ⟨mid, .idle dir idle first, second⟩
    | up dir next =>
      obtain ⟨mid, first, second⟩ := ih next
      exact ⟨mid, .up dir first, second⟩
    | down dir name found next =>
      obtain ⟨mid, first, second⟩ := ih next
      exact ⟨mid, .down dir name found first, second⟩

/-- Only a directory leads on. -/
theorem standing_of_ne_nil (h : fs.Leads loc segments goal) (more : segments ≠ []) :
    fs.standing? loc = some .directory := by
  cases h with
  | done loc => exact absurd rfl more
  | idle dir | up dir | down dir => exact dir

end Leads

end FileSystem

namespace Place

variable {fs : FileSystem} {p q : Place} {segments : List String}

/-- The place is in the file system, and so is the way to it. -/
inductive In (fs : FileSystem) : Place → Prop
  | root : In fs fs.start
  | inside {d : Directory} {way : List (String × Directory)} {name : String} {t : FileTree}
      (above : In fs ⟨.directory d, way⟩) (found : d.find? name = some t) :
      In fs ⟨t, (name, d) :: way⟩

theorem location_cons (t : FileTree) (name : String) (d : Directory)
    (way : List (String × Directory)) :
    location ⟨t, (name, d) :: way⟩ = location ⟨.directory d, way⟩ ++ [name] := by
  simp [location]

/-- What is at the place stands at its location. -/
theorem In.find? (h : In fs p) : fs.find? p.location = some p.here := by
  induction h with
  | root => rfl
  | inside above found ih =>
    rw [FileSystem.find?] at ih ⊢
    rw [location_cons, FileTree.find?_append, ih, Option.bind_some, FileTree.find?, found]
    rfl

/-- At a place in a file system stands what is there. -/
theorem In.standing? (h : In fs p) : fs.standing? p.location = some p.here.standing := by
  rw [FileSystem.standing?, h.find?]
  rfl

/-- A directory stands at the location of a place exactly if the place is one. -/
theorem In.standing?_eq_directory_iff (h : In fs p) :
    fs.standing? p.location = some .directory ↔ ∃ d, p.here = .directory d := by
  rw [h.standing?]
  cases p.here with
  | file text => exact ⟨nofun, nofun⟩
  | directory d => exact ⟨fun _ ↦ ⟨d, rfl⟩, fun _ ↦ rfl⟩

/-- One level up is a place in the file system too; above the root it is the root. -/
theorem In.up (h : In fs p) : In fs p.up ∧ p.up.location = p.location.dropLast := by
  cases h with
  | root => exact ⟨.root, rfl⟩
  | inside above found =>
    rw [location_cons, List.dropLast_concat]
    exact ⟨above, rfl⟩

/-- A name in the directory at a place, with what it names. -/
theorem In.enter (h : In fs p) {d : Directory} (dir : p.here = .directory d) {name : String}
    {t : FileTree} (found : d.find? name = some t) :
    In fs ⟨t, (name, d) :: p.way⟩ ∧ location ⟨t, (name, d) :: p.way⟩ = p.location ++ [name] := by
  obtain ⟨here, way⟩ := p
  obtain rfl : here = .directory d := dir
  exact ⟨.inside h found, location_cons ..⟩

/-- What stands below a place is what its directory holds. -/
theorem In.standing?_concat (h : In fs p) {d : Directory} (dir : p.here = .directory d)
    (name : String) :
    fs.standing? (p.location ++ [name]) = (d.find? name).map FileTree.standing := by
  rw [FileSystem.standing?, FileSystem.find?, FileTree.find?_append]
  have here := h.find?
  rw [FileSystem.find?] at here
  rw [here, Option.bind_some, dir, FileTree.find?]
  cases d.find? name <;> rfl

/-- Following segments from a place in the file system leads to a place in it. -/
theorem In.leads_of_follow (h : In fs p) (followed : p.follow segments = .ok q) :
    In fs q ∧ fs.Leads p.location segments q.location := by
  fun_induction follow p segments with
  | case1 p =>
    obtain rfl := Except.ok.inj followed
    exact ⟨h, .done _⟩
  | case2 | case5 | case6 => cases followed
  | case3 p s rest d dir idle ih =>
    have here := h.standing?_eq_directory_iff.2 ⟨d, dir⟩
    obtain ⟨inside, next⟩ := ih h followed
    exact ⟨inside, .idle here (by simpa using idle) next⟩
  | case4 p rest d dir idle ih =>
    have here := h.standing?_eq_directory_iff.2 ⟨d, dir⟩
    obtain ⟨inside, next⟩ := ih h.up.1 followed
    exact ⟨inside, .up here (h.up.2 ▸ next)⟩
  | case7 p s rest d dir idle up fits t found ih =>
    have here := h.standing?_eq_directory_iff.2 ⟨d, dir⟩
    have name : IsName s := by
      simp only [Bool.or_eq_true, decide_eq_true_eq, not_or] at idle
      exact ⟨idle.1, idle.2, up, Nat.not_lt.1 fits⟩
    obtain ⟨enter, loc⟩ := h.enter dir found
    obtain ⟨inside, next⟩ := ih enter followed
    refine ⟨inside, .down here name ?_ (loc ▸ next)⟩
    rw [h.standing?_concat dir, found]
    rfl

/-- Where segments lead, they can be followed. -/
theorem In.follow_of_leads (h : In fs p) {goal : Location}
    (leads : fs.Leads p.location segments goal) :
    ∃ q, p.follow segments = .ok q ∧ q.location = goal := by
  generalize begin : p.location = loc at leads
  induction leads generalizing p with
  | done loc => exact ⟨p, rfl, begin⟩
  | idle here idle _ ih =>
    obtain ⟨d, dir⟩ := h.standing?_eq_directory_iff.1 (begin ▸ here)
    rw [follow.eq_def]
    simpa [dir, idle] using ih h begin
  | up here _ ih =>
    obtain ⟨d, dir⟩ := h.standing?_eq_directory_iff.1 (begin ▸ here)
    rw [follow.eq_def]
    simpa [dir] using ih h.up.1 (h.up.2.trans (congrArg _ begin))
  | @down loc _ s _ here name found _ ih =>
    obtain ⟨d, dir⟩ := h.standing?_eq_directory_iff.1 (begin ▸ here)
    rw [← begin, h.standing?_concat dir, Option.isSome_map] at found
    obtain ⟨t, found⟩ := Option.isSome_iff_exists.1 found
    obtain ⟨enter, below⟩ := h.enter dir found
    have ⟨notEmpty, notDot, notUp, fits⟩ := name
    rw [follow.eq_def]
    simpa [dir, notEmpty, notDot, notUp, Nat.not_lt.2 fits, found] using
      ih enter (below.trans (congrArg (· ++ [s]) begin))

end Place

namespace FileSystem

variable {fs fs' : FileSystem} {cwd loc : Location} {p : Path}

/-- The path leads to the location. -/
def Reaches (fs : FileSystem) (cwd : Location) (p : Path) (loc : Location) : Prop :=
  ∃ place, fs.locate cwd p = .ok place ∧ place.location = loc

/-- A path that is not refused is followed from the root on. -/
theorem locate_eq_of_not_refused (accepted : p.refused? = none) :
    fs.locate cwd p = fs.start.follow (p.segmentsFrom cwd) := by
  rw [locate, accepted]

theorem not_refused_of_locate {place : Place} (h : fs.locate cwd p = .ok place) :
    p.refused? = none := by
  rw [locate] at h
  split at h
  · cases h
  · assumption

theorem in_of_locate {place : Place} (h : fs.locate cwd p = .ok place) : place.In fs := by
  rw [locate_eq_of_not_refused (not_refused_of_locate h)] at h
  exact (Place.In.root.leads_of_follow h).1

/-- A path reaches a place if it is not refused and its segments lead there. -/
theorem reaches_iff :
    fs.Reaches cwd p loc ↔ p.refused? = none ∧ fs.Leads [] (p.segmentsFrom cwd) loc := by
  constructor
  · rintro ⟨place, located, rfl⟩
    have accepted := not_refused_of_locate located
    rw [locate_eq_of_not_refused accepted] at located
    exact ⟨accepted, (Place.In.root.leads_of_follow located).2⟩
  · rintro ⟨accepted, leads⟩
    rw [Reaches, locate_eq_of_not_refused accepted]
    exact Place.In.root.follow_of_leads leads

/-- A path leads to one location at most. -/
theorem Reaches.unique {other : Location} (h : fs.Reaches cwd p loc) (h' : fs.Reaches cwd p other) :
    loc = other := by
  obtain ⟨place, located, rfl⟩ := h
  obtain ⟨place', located', rfl⟩ := h'
  rw [Except.ok.inj (located.symm.trans located')]

/-- What a path reaches it still reaches when more files and directories are there. -/
theorem Reaches.mono (h : fs.Reaches cwd p loc) (keeps : fs.Keeps fs') : fs'.Reaches cwd p loc := by
  have ⟨accepted, leads⟩ := reaches_iff.1 h
  exact reaches_iff.2 ⟨accepted, leads.mono keeps⟩

/-- A path that leads to a directory's location leads to a directory. -/
theorem Reaches.isDirectory (h : fs.Reaches cwd p loc) (dir : fs.standing? loc = some .directory) :
    fs.isDirectory cwd p = true := by
  obtain ⟨place, located, rfl⟩ := h
  obtain ⟨d, here⟩ := (in_of_locate located).standing?_eq_directory_iff.1 dir
  obtain ⟨_, way⟩ := place
  obtain rfl := here
  rw [FileSystem.isDirectory, located]

/-- A path that leads to a file's location leads to the text of the file. -/
theorem Reaches.readText {text : String} (h : fs.Reaches cwd p loc)
    (file : fs.standing? loc = some (.file (some text))) : fs.readText cwd p = .ok text := by
  obtain ⟨place, located, rfl⟩ := h
  have here : place.here.standing = .file (some text) :=
    Option.some.inj ((in_of_locate located).standing?.symm.trans file)
  have same : place.here = .file (some text) := by
    cases tree : place.here with
    | file contents =>
      rw [tree] at here
      rw [Standing.file.inj here]
    | directory d =>
      rw [tree] at here
      cases here
  rw [FileSystem.readText, located]
  simp [Except.bind, bind, same]
  rfl

end FileSystem

end FlatDecls
