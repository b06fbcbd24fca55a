import FlatDecls.Json.Token
import FlatDecls.Proofs.Files.Parents

/-!
# What requests change

Making a directory, where it succeeds, changes one location at which nothing stood
(`FileSystem.makeDirectory_ok`), and writing a text changes one at which no directory stood
(`FileSystem.writeText_ok`). Making all missing directories of a path changes no file and no
directory, whether it succeeds or not (`FileSystem.atMostMade_makeDirectories`), so a text that is
written behind them is all that is new besides (`FileSystem.written_of_writeText`).
-/

namespace FlatDecls

namespace FileSystem

variable {fs fs' : FileSystem} {cwd loc : Location} {p : Path} {t : Target}

/-! ### Targets -/

/-- The name at the end of a path: only slashes follow it, and what is before it leads to the
directory of the name. -/
structure TargetOf (fs : FileSystem) (cwd : Location) (p : Path) (t : Target)
    (before slashes : List String) : Prop where
  accepted : p.refused? = none
  segments : p.segmentsFrom cwd = before ++ t.name :: slashes
  slashes : ∀ s ∈ slashes, s = ""
  name : t.name ≠ "" ∧ t.name ≠ "." ∧ t.name ≠ ".."
  leads : fs.Leads [] before t.above
  directory : fs.find? t.above = some (.directory t.directory)

/-- A list is cut before the empty texts at its end. -/
theorem exists_slashes {segments : List String} {name : String}
    (h : (segments.reverse.dropWhile (· == "")).reverse.getLast? = some name) :
    name ≠ "" ∧ ∃ slashes, (∀ s ∈ slashes, s = "") ∧
      segments = (segments.reverse.dropWhile (· == "")).reverse.dropLast ++ name :: slashes := by
  have last := List.head?_dropWhile_not (· == "") segments.reverse
  rw [List.getLast?_reverse] at h
  rw [h] at last
  refine ⟨by simpa using last, (segments.reverse.takeWhile (· == "")).reverse, ?_, ?_⟩
  · intro s hs
    simpa using List.all_eq_true.1 List.all_takeWhile s (List.mem_reverse.1 hs)
  · obtain ⟨rest, cut⟩ := List.head?_eq_some_iff.1 h
    rw [cut, List.reverse_cons, List.dropLast_concat, ← List.reverse_inj, List.reverse_append,
      List.reverse_cons, List.reverse_reverse, List.reverse_reverse, List.append_assoc,
      List.singleton_append, ← cut, List.takeWhile_append_dropWhile]

theorem exists_targetOf (h : fs.target cwd p = .ok (some t)) :
    ∃ before slashes, fs.TargetOf cwd p t before slashes := by
  rw [target] at h
  cases refused : p.refused? with
  | some e =>
    rw [refused] at h
    cases h
  | none =>
    rw [refused] at h
    simp only at h
    split at h
    · cases h
    · obtain ⟨_, _, h⟩ := Json.eq_ok_of_bind h
      cases h
    · obtain ⟨_, _, h⟩ := Json.eq_ok_of_bind h
      cases h
    next name notDot notUp last =>
      obtain ⟨notEmpty, slashes, empty, segments⟩ := exists_slashes last
      obtain ⟨above, followed, h⟩ := Json.eq_ok_of_bind h
      obtain ⟨inside, leads⟩ := Place.In.root.leads_of_follow followed
      split at h
      · cases h
      next d here =>
        obtain rfl := Option.some.inj (Except.ok.inj h)
        exact ⟨_, slashes, refused, segments, empty, ⟨notEmpty, notDot, notUp⟩, leads,
          inside.find?.trans (congrArg _ here)⟩

/-- Whatever comes to stand where no directory stood, all the rest stays. -/
theorem keeps_of_changed {new : Standing} (free : fs.standing? loc ≠ some .directory)
    (changed : ∀ l, fs'.standing? l = if l = loc then some new else fs.standing? l) :
    fs.Keeps fs' where
  directory l dir := by
    rw [changed, if_neg, dir]
    rintro rfl
    exact free dir
  present l present := by
    rw [changed]
    split
    · rfl
    · exact present

namespace TargetOf

variable {before slashes : List String} {tree : FileTree}

theorem standing?_location (h : fs.TargetOf cwd p t before slashes) :
    fs.standing? t.location = t.occupant?.map FileTree.standing := by
  have dir := h.directory
  rw [find?] at dir
  rw [standing?, find?, Target.location, FileTree.find?_append, dir, Option.bind_some,
    FileTree.find?, Target.occupant?]
  cases t.directory.find? t.name <;> rfl

/-- What is put at a target stands there, and elsewhere nothing changes. -/
theorem standing?_put (h : fs.TargetOf cwd p t before slashes) (leaf : tree.Leaf)
    (free : fs.standing? t.location ≠ some .directory) (other : Location) :
    (fs.put t.location tree).standing? other =
      if other = t.location then some tree.standing else fs.standing? other := by
  refine FileSystem.standing?_put leaf h.directory ?_ other
  rw [h.standing?_location, Target.occupant?] at free
  cases found : t.directory.find? t.name with
  | none => rfl
  | some u => simpa [found] using free

/-- Up to its name, the path leads to what has been put at its target. -/
theorem leads_put (h : fs.TargetOf cwd p t before slashes) (leaf : tree.Leaf)
    (free : fs.standing? t.location ≠ some .directory) (fits : ¬ t.isTooLong = true) :
    (fs.put t.location tree).Leads [] (before ++ [t.name]) t.location := by
  have keeps := keeps_of_changed free (h.standing?_put leaf free)
  have above : fs.standing? t.above = some .directory := by
    rw [standing?, h.directory]
    rfl
  have short : t.name.utf8ByteSize ≤ nameLimit := by simpa [Target.isTooLong] using fits
  refine (h.leads.mono keeps).trans (.down (keeps.directory _ above) ?_ ?_ (.done _))
  · exact ⟨h.name.1, h.name.2.1, h.name.2.2, short⟩
  · rw [← Target.location, h.standing?_put leaf free, if_pos rfl]
    rfl

end TargetOf

/-- Slashes behind a directory change nothing. -/
theorem leads_slashes (dir : fs.standing? loc = some .directory) {slashes : List String}
    (h : ∀ s ∈ slashes, s = "") : fs.Leads loc slashes loc := by
  induction slashes with
  | nil => exact .done loc
  | cons s slashes ih =>
    have ⟨first, rest⟩ := List.forall_mem_cons.1 h
    exact .idle dir (.inl first) (ih rest)

/-- A directory that is made stands where nothing stood, and elsewhere nothing changes. -/
theorem makeDirectory_ok (h : fs.makeDirectory cwd p = .ok fs') :
    ∃ loc, fs.standing? loc = none ∧ fs'.Reaches cwd p loc ∧
      ∀ l, fs'.standing? l = if l = loc then some .directory else fs.standing? l := by
  rw [makeDirectory] at h
  obtain ⟨found, target, h⟩ := Json.eq_ok_of_bind h
  cases found with
  | none => cases h
  | some t =>
    obtain ⟨before, slashes, goal⟩ := exists_targetOf target
    simp only at h
    split at h
    · cases h
    next fits =>
    split at h
    · cases h
    next vacant =>
    obtain rfl := Except.ok.inj h
    have free : fs.standing? t.location = none := by
      rw [goal.standing?_location, Option.not_isSome_iff_eq_none.1 vacant]
      rfl
    have changed := goal.standing?_put FileTree.leaf_empty (by simp [free])
    have leads := goal.leads_put FileTree.leaf_empty (by simp [free]) fits
    have dir := (changed t.location).trans (if_pos rfl)
    refine ⟨t.location, free, reaches_iff.2 ⟨goal.accepted, ?_⟩, changed⟩
    rw [goal.segments, List.append_cons]
    exact leads.trans (leads_slashes dir goal.slashes)

/-- The last segment of a path does not depend on where the path is seen from. -/
theorem getLast?_segmentsFrom (cwd : Location) (p : Path) :
    (p.segmentsFrom cwd).getLast? = p.segments.getLast? := by
  have some : p.segments ≠ [] := by simp [Path.segments, Path.splitSlash_ne_nil]
  rw [Path.segmentsFrom]
  split
  · rfl
  · rw [List.getLast?_append, List.getLast?_eq_some_getLast some, Option.some_or]

/-- A text that is written stands where no directory stood, and elsewhere nothing changes. -/
theorem writeText_ok {text : String} (h : fs.writeText cwd p text = .ok fs') :
    ∃ loc, fs.standing? loc ≠ some .directory ∧ fs'.Reaches cwd p loc ∧
      ∀ l, fs'.standing? l = if l = loc then some (.file (some text)) else fs.standing? l := by
  rw [writeText] at h
  obtain ⟨found, target, h⟩ := Json.eq_ok_of_bind h
  cases found with
  | none => cases h
  | some t =>
    obtain ⟨before, slashes, goal⟩ := exists_targetOf target
    simp only at h
    split at h
    · cases h
    next noSlash =>
    split at h
    · cases h
    next fits =>
    split at h
    · cases h
    next vacant =>
    obtain rfl := Except.ok.inj h
    have free : fs.standing? t.location ≠ some .directory := by
      rw [goal.standing?_location]
      intro dir
      obtain ⟨u, found, top⟩ := Option.map_eq_some_iff.1 dir
      cases u with
      | file contents => cases top
      | directory d => exact vacant d found
    have none : slashes = [] := by
      rcases List.eq_nil_or_concat slashes with none | ⟨rest, s, rfl⟩
      · exact none
      · have last : p.segments.getLast? = some s := by
          rw [← getLast?_segmentsFrom cwd, goal.segments, List.concat_eq_append, ← List.cons_append,
            ← List.append_assoc, List.getLast?_concat]
        rw [last, goal.slashes s (by simp)] at noSlash
        exact absurd rfl noSlash
    have changed := goal.standing?_put (FileTree.leaf_file text) free
    have leads := goal.leads_put (FileTree.leaf_file text) free fits
    refine ⟨t.location, free, reaches_iff.2 ⟨goal.accepted, ?_⟩, changed⟩
    rw [goal.segments, none]
    exact leads

/-! ### Directories -/

/-- At the location nothing has changed, unless a directory has been made where nothing stood and
one of the paths leads to it. -/
def AtMostMade (fs fs' : FileSystem) (cwd : Location) (ps : List Path) (loc : Location) : Prop :=
  fs'.standing? loc = fs.standing? loc ∨
    fs.standing? loc = none ∧ fs'.standing? loc = some .directory ∧ ∃ p ∈ ps, fs'.Reaches cwd p loc

variable {ps qs : List Path}

theorem keeps_of_atMostMade (h : ∀ loc, fs.AtMostMade fs' cwd ps loc) : fs.Keeps fs' where
  directory l dir := by
    rcases h l with same | ⟨nothing, -⟩
    · exact same.trans dir
    · cases nothing.symm.trans dir
  present l some := by
    rcases h l with same | ⟨nothing, -⟩
    · rwa [same]
    · rw [nothing] at some
      cases some

/-- What has been made stays made when more is made or written elsewhere. -/
theorem AtMostMade.mono {fs'' : FileSystem} (h : fs.AtMostMade fs' cwd ps loc)
    (sub : ∀ p ∈ ps, p ∈ qs) (keeps : fs'.Keeps fs'')
    (same : fs''.standing? loc = fs'.standing? loc) : fs.AtMostMade fs'' cwd qs loc := by
  rcases h with unchanged | ⟨nothing, dir, p, hp, reaches⟩
  · exact .inl (same.trans unchanged)
  · exact .inr ⟨nothing, same.trans dir, p, sub p hp, reaches.mono keeps⟩

theorem atMostMade_makeDirectory (h : fs.makeDirectory cwd p = .ok fs') (mem : p ∈ ps) :
    ∀ loc, fs.AtMostMade fs' cwd ps loc := by
  obtain ⟨made, nothing, reaches, changed⟩ := makeDirectory_ok h
  intro loc
  by_cases new : loc = made
  · subst new
    exact .inr ⟨nothing, (changed loc).trans (if_pos rfl), p, mem, reaches⟩
  · exact .inl ((changed loc).trans (if_neg new))

theorem AtMostMade.trans {fs'' : FileSystem} (first : ∀ loc, fs.AtMostMade fs' cwd ps loc)
    (second : ∀ loc, fs'.AtMostMade fs'' cwd ps loc) : ∀ loc, fs.AtMostMade fs'' cwd ps loc := by
  intro loc
  rcases second loc with same | ⟨nothing, made⟩
  · exact (first loc).mono (fun _ hp ↦ hp) (keeps_of_atMostMade second) same
  · rcases first loc with same | ⟨-, dir, -⟩
    · exact .inr ⟨same.symm.trans nothing, made⟩
    · cases nothing.symm.trans dir

/-- Making directories changes nothing but that some of them are made. -/
theorem atMostMade_makeDirectoriesFrom (fs : FileSystem) (cwd : Location) (ps : List Path) :
    ∀ loc, fs.AtMostMade (fs.makeDirectoriesFrom cwd ps).2 cwd ps loc := by
  induction ps with
  | nil => exact fun loc ↦ .inl rfl
  | cons p above ih =>
    rw [makeDirectoriesFrom]
    split
    · exact fun loc ↦ .inl rfl
    split
    next made => exact atMostMade_makeDirectory made List.mem_cons_self
    next =>
      have ih := fun loc ↦ (ih loc).mono (fun q hq ↦ List.mem_cons_of_mem p hq)
        ⟨fun _ dir ↦ dir, fun _ some ↦ some⟩ rfl
      split
      next fs' made =>
        rw [made] at ih
        refine AtMostMade.trans ih ?_
        rw [finishDirectory]
        split
        next made => exact atMostMade_makeDirectory made List.mem_cons_self
        next => exact fun loc ↦ .inl rfl
      next => exact ih
    next => exact fun loc ↦ .inl rfl

theorem atMostMade_makeDirectories (fs : FileSystem) (cwd : Location) (p : Path) :
    ∀ loc, fs.AtMostMade (fs.makeDirectories cwd p).2 cwd p.ancestors loc :=
  atMostMade_makeDirectoriesFrom fs cwd p.ancestors

/-! ### Files -/

/-- The text has been written to a file, whose directories have been made where they were missing,
and nothing else has changed. -/
structure Written (fs fs' : FileSystem) (cwd : Location) (p : Path) (text : String) : Prop where
  file : ∃ loc, fs'.Reaches cwd p loc ∧ fs'.standing? loc = some (.file (some text)) ∧
    fs.standing? loc ≠ some .directory ∧ ∀ l, l ≠ loc → fs.AtMostMade fs' cwd p.ancestors.tail l
  text : fs'.readText cwd p = .ok text
  parents : ∀ q ∈ p.ancestors.tail, q.isEmpty = false → fs'.isDirectory cwd q = true

/-- Writing a text after directories were made. -/
theorem written_of_writeText {made : FileSystem} {text : String}
    (directories : ∀ loc, fs.AtMostMade made cwd p.ancestors.tail loc)
    (h : made.writeText cwd p text = .ok fs') : fs.Written fs' cwd p text := by
  obtain ⟨loc, free, reaches, changed⟩ := writeText_ok h
  have written := (changed loc).trans (if_pos rfl)
  have keeps := keeps_of_changed free changed
  refine ⟨⟨loc, reaches, written, ?_, fun l other ↦ ?_⟩, reaches.readText written, ?_⟩
  · exact fun dir ↦ free ((keeps_of_atMostMade directories).directory loc dir)
  · exact (directories l).mono (fun _ hq ↦ hq) keeps ((changed l).trans (if_neg other))
  · exact fun q mem nonempty ↦ reaches.isDirectory_of_mem_ancestors mem nonempty

end FileSystem

end FlatDecls
