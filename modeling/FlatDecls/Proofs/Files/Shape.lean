import FlatDecls.Proofs.Files.Writing

/-!
# The shape of a file system

Two file systems have the same shape if at each location there is a file in both, a directory in
both or nothing in both (`FileSystem.SameShape`). What the files hold shows only when they are read:
paths lead to the same places or fail in the same way (`FileSystem.locate_alike`), and a request
that makes directories or writes a text ends alike and changes the same in both
(`FileSystem.makeDirectories_alike`, `FileSystem.writeText_alike`).
-/

namespace FlatDecls

/-- Is this a directory? -/
def Standing.isDirectory : Standing → Bool
  | file _ => false
  | directory => true

/-- Both fail in the same way, or both succeed and what they give is related. -/
inductive EndAlike {ε α β : Type} (R : α → β → Prop) : Except ε α → Except ε β → Prop
  | error (e : ε) : EndAlike R (.error e) (.error e)
  | ok {a : α} {b : β} (related : R a b) : EndAlike R (.ok a) (.ok b)

namespace EndAlike

variable {ε α β γ δ : Type} {R : α → β → Prop} {x : Except ε α} {y : Except ε β}

/-- Two runs that end alike both fail with one error, or both succeed with related results. -/
theorem elim (h : EndAlike R x y) :
    (∃ e, x = .error e ∧ y = .error e) ∨ ∃ a b, x = .ok a ∧ y = .ok b ∧ R a b := by
  cases h with
  | error e => exact .inl ⟨e, rfl, rfl⟩
  | ok related => exact .inr ⟨_, _, rfl, rfl, related⟩

/-- Ending alike is kept by going on alike. -/
theorem bind {S : γ → δ → Prop} {f : α → Except ε γ} {g : β → Except ε δ} (first : EndAlike R x y)
    (second : ∀ a b, R a b → EndAlike S (f a) (g b)) : EndAlike S (x >>= f) (y >>= g) := by
  cases first with
  | error e => exact .error e
  | ok related => exact second _ _ related

end EndAlike

namespace FileSystem

variable {fs fs' : FileSystem}

/-- At each location there is a file in both, a directory in both or nothing in both. -/
def SameShape (fs fs' : FileSystem) : Prop :=
  ∀ loc, (fs.standing? loc).map Standing.isDirectory = (fs'.standing? loc).map Standing.isDirectory

/-- At each location nothing has changed in either, or there is the same in both now. -/
def SameChanges (fs fs' after after' : FileSystem) : Prop :=
  ∀ loc, (after.standing? loc = fs.standing? loc ∧ after'.standing? loc = fs'.standing? loc) ∨
    after.standing? loc = after'.standing? loc

/-- Files may differ in content, but directories and the kinds of all places agree. -/
theorem SameShape.keeps (shape : fs.SameShape fs') : fs.Keeps fs' where
  directory loc dir := by
    have same := shape loc
    rw [dir, eq_comm, Option.map_some, Option.map_eq_some_iff] at same
    obtain ⟨standing, here, top⟩ := same
    cases standing with
    | file text => cases top
    | directory => exact here
  present loc some := by
    rwa [← Option.isSome_map, ← shape loc, Option.isSome_map]

namespace SameChanges

variable {after after' later later' : FileSystem}

theorem refl (fs fs' : FileSystem) : fs.SameChanges fs' fs fs' := fun _ ↦ .inl ⟨rfl, rfl⟩

/-- Changes of the same kind may follow one another. -/
theorem trans (first : fs.SameChanges fs' after after')
    (second : after.SameChanges after' later later') : fs.SameChanges fs' later later' := by
  intro loc
  rcases second loc with ⟨same, same'⟩ | now
  · rw [same, same']
    exact first loc
  · exact .inr now

/-- The same changes keep the shapes the same. -/
theorem sameShape (changes : fs.SameChanges fs' after after') (shape : fs.SameShape fs') :
    after.SameShape after' := by
  intro loc
  rcases changes loc with ⟨same, same'⟩ | now
  · rw [same, same']
    exact shape loc
  · rw [now]

end SameChanges

end FileSystem

/-! ### Following a path -/

/-- Two places of one location, each in a file system of its own. -/
structure Place.Twin (fs fs' : FileSystem) (p p' : Place) : Prop where
  left : p.In fs
  right : p'.In fs'
  location : p.location = p'.location

namespace Place.Twin

variable {fs fs' : FileSystem} {p p' : Place} {d d' : Directory}

theorem up (twin : Twin fs fs' p p') : Twin fs fs' p.up p'.up where
  left := twin.left.up.1
  right := twin.right.up.1
  location := by rw [twin.left.up.2, twin.right.up.2, twin.location]

/-- At twin places are two files or two directories. -/
theorem here (shape : fs.SameShape fs') (twin : Twin fs fs' p p') :
    (∃ text text', p.here = .file text ∧ p'.here = .file text') ∨
      ∃ d d', p.here = .directory d ∧ p'.here = .directory d' := by
  have same := shape p.location
  rw [twin.left.standing?, twin.location, twin.right.standing?] at same
  obtain ⟨here, way⟩ := p
  obtain ⟨here', way'⟩ := p'
  cases here with
  | file text =>
    cases here' with
    | file text' => exact .inl ⟨text, text', rfl, rfl⟩
    | directory d' => cases same
  | directory d =>
    cases here' with
    | file text' => cases same
    | directory d' => exact .inr ⟨d, d', rfl, rfl⟩

/-- In the directories of twin places, a name names alike. -/
theorem find? (shape : fs.SameShape fs') (twin : Twin fs fs' p p') (dir : p.here = .directory d)
    (dir' : p'.here = .directory d') (name : String) :
    (d.find? name).map (·.standing.isDirectory) = (d'.find? name).map (·.standing.isDirectory) := by
  have same := shape (p.location ++ [name])
  rw [twin.left.standing?_concat dir, twin.location, twin.right.standing?_concat dir',
    Option.map_map, Option.map_map] at same
  exact same

/-- From twin places, segments lead to twin places or fail in the same way. -/
theorem follow (shape : fs.SameShape fs') (twin : Twin fs fs' p p') (segments : List String) :
    EndAlike (Twin fs fs') (p.follow segments) (p'.follow segments) := by
  induction segments generalizing p p' with
  | nil => exact .ok twin
  | cons s rest ih =>
    rw [follow.eq_def, follow.eq_def]
    rcases twin.here shape with ⟨_, _, file, file'⟩ | ⟨d, d', dir, dir'⟩
    · simp only [file, file']
      exact .error _
    · simp only [dir, dir']
      by_cases idle : (decide (s = "") || decide (s = ".")) = true
      · rw [if_pos idle, if_pos idle]
        exact ih twin
      rw [if_neg idle, if_neg idle]
      by_cases up : s = ".."
      · rw [if_pos up, if_pos up]
        exact ih twin.up
      rw [if_neg up, if_neg up]
      by_cases long : nameLimit < s.utf8ByteSize
      · rw [if_pos long, if_pos long]
        exact .error _
      rw [if_neg long, if_neg long]
      have named := twin.find? shape dir dir' s
      cases found : d.find? s with
      | none =>
        rw [found] at named
        rw [Option.map_eq_none_iff.1 named.symm]
        exact .error _
      | some t =>
        rw [found] at named
        obtain ⟨t', found', -⟩ := Option.map_eq_some_iff.1 named.symm
        rw [found']
        obtain ⟨enter, loc⟩ := twin.left.enter dir found
        obtain ⟨enter', loc'⟩ := twin.right.enter dir' found'
        exact ih ⟨enter, enter', by rw [loc, loc', twin.location]⟩

end Place.Twin

namespace FileSystem

variable {fs fs' : FileSystem} (shape : fs.SameShape fs') (cwd : Location) (p : Path)

include shape

/-- From the root the same segments lead to twin places, or fail at the same one. -/
theorem follow_start_alike (segments : List String) :
    EndAlike (Place.Twin fs fs') (fs.start.follow segments) (fs'.start.follow segments) :=
  Place.Twin.follow shape ⟨.root, .root, rfl⟩ segments

/-- A path leads to twin places or fails in the same way. -/
theorem locate_alike : EndAlike (Place.Twin fs fs') (fs.locate cwd p) (fs'.locate cwd p) := by
  rw [locate, locate]
  cases p.refused? with
  | some e => exact .error e
  | none => exact follow_start_alike shape _

/-- A path fails in the same way, or leads to two files or to two directories. -/
theorem located_alike :
    (∃ e, fs.locate cwd p = .error e ∧ fs'.locate cwd p = .error e) ∨
      (∃ text way text' way', fs.locate cwd p = .ok ⟨.file text, way⟩ ∧
        fs'.locate cwd p = .ok ⟨.file text', way'⟩) ∨
      ∃ d way d' way', fs.locate cwd p = .ok ⟨.directory d, way⟩ ∧
        fs'.locate cwd p = .ok ⟨.directory d', way'⟩ := by
  rcases (locate_alike shape cwd p).elim with failed | ⟨⟨here, way⟩, ⟨here', way'⟩, ok, ok', twin⟩
  · exact .inl failed
  · rcases twin.here shape with ⟨text, text', rfl, rfl⟩ | ⟨d, d', rfl, rfl⟩
    · exact .inr (.inl ⟨text, way, text', way', ok, ok'⟩)
    · exact .inr (.inr ⟨d, way, d', way', ok, ok'⟩)

/-- Whether there is a file does not depend on what is in it. -/
theorem isFile_alike : fs.isFile cwd p = fs'.isFile cwd p := by
  rw [isFile, isFile]
  rcases located_alike shape cwd p with ⟨_, h, h'⟩ | ⟨_, _, _, _, h, h'⟩ | ⟨_, _, _, _, h, h'⟩ <;>
    rw [h, h']

theorem isDirectory_alike : fs.isDirectory cwd p = fs'.isDirectory cwd p := by
  rw [isDirectory, isDirectory]
  rcases located_alike shape cwd p with ⟨_, h, h'⟩ | ⟨_, _, _, _, h, h'⟩ | ⟨_, _, _, _, h, h'⟩ <;>
    rw [h, h']

end FileSystem

/-! ### Targets -/

/-- One name in one place, which names a file in both, a directory in both or nothing in both. -/
structure FileSystem.Target.Twin (t t' : Target) : Prop where
  above : t.above = t'.above
  name : t.name = t'.name
  occupant : t.occupant?.map (·.standing.isDirectory) = t'.occupant?.map (·.standing.isDirectory)

namespace FileSystem

theorem Target.Twin.location {t t' : Target} (twin : t.Twin t') : t.location = t'.location := by
  rw [Target.location, Target.location, twin.above, twin.name]

theorem Target.Twin.isTooLong {t t' : Target} (twin : t.Twin t') : t.isTooLong = t'.isTooLong := by
  rw [Target.isTooLong, Target.isTooLong, twin.name]

variable {fs fs' : FileSystem} (shape : fs.SameShape fs') (cwd : Location) (p : Path)

include shape

/-- A path names twin targets for writing. -/
theorem target_alike :
    EndAlike (Option.Rel Target.Twin) (fs.target cwd p) (fs'.target cwd p) := by
  rw [target, target]
  cases p.refused? with
  | some e => exact .error e
  | none =>
    simp only
    split
    · exact .ok .none
    · exact (follow_start_alike shape _).bind fun _ _ _ ↦ .ok .none
    · exact (follow_start_alike shape _).bind fun _ _ _ ↦ .ok .none
    next name notDot notUp last =>
      refine (follow_start_alike shape _).bind fun place place' twin ↦ ?_
      rcases twin.here shape with ⟨_, _, file, file'⟩ | ⟨d, d', dir, dir'⟩
      · simp only [file, file']
        exact .error _
      · simp only [dir, dir']
        exact .ok (.some ⟨twin.location, rfl, twin.find? shape dir dir' name⟩)

/-! ### Changes -/

omit shape in
/-- What is put at twin targets, where no directory stands, is the same change. -/
theorem sameChanges_put {t t' : Target} {before before' slashes slashes' : List String}
    {tree : FileTree} (h : fs.TargetOf cwd p t before slashes)
    (h' : fs'.TargetOf cwd p t' before' slashes') (twin : t.Twin t') (leaf : tree.Leaf)
    (free : t.occupant?.map (·.standing.isDirectory) ≠ some true) :
    fs.SameChanges fs' (fs.put t.location tree) (fs'.put t'.location tree) := by
  have noDirectory {gs : FileSystem} {u : Target} {front back : List String}
      (goal : gs.TargetOf cwd p u front back)
      (free : u.occupant?.map (·.standing.isDirectory) ≠ some true) :
      gs.standing? u.location ≠ some .directory := by
    intro dir
    rw [goal.standing?_location, Option.map_eq_some_iff] at dir
    obtain ⟨inner, found, top⟩ := dir
    rw [found, Option.map_some, top] at free
    exact free rfl
  intro loc
  rw [h.standing?_put leaf (noDirectory h free),
    h'.standing?_put leaf (noDirectory h' (twin.occupant ▸ free)), twin.location]
  by_cases here : loc = t'.location
  · rw [if_pos here, if_pos here]
    exact .inr rfl
  · rw [if_neg here, if_neg here]
    exact .inl ⟨rfl, rfl⟩

/-- A directory is made in both systems or in neither. -/
theorem makeDirectory_alike :
    EndAlike (fs.SameChanges fs') (fs.makeDirectory cwd p) (fs'.makeDirectory cwd p) := by
  rw [makeDirectory, makeDirectory]
  rcases (target_alike shape cwd p).elim with ⟨e, failed, failed'⟩ | ⟨_, _, found, found', twin⟩
  · rw [failed, failed']
    exact .error e
  rw [found, found']
  cases twin with
  | none => exact .error _
  | @some t t' twin =>
    obtain ⟨before, slashes, goal⟩ := exists_targetOf found
    obtain ⟨before', slashes', goal'⟩ := exists_targetOf found'
    have taken : t.occupant?.isSome = t'.occupant?.isSome := by
      rw [← Option.isSome_map, twin.occupant, Option.isSome_map]
    dsimp only [bind, Except.bind]
    rw [← twin.isTooLong, ← taken]
    split
    · exact .error _
    split
    · exact .error _
    next vacant =>
      refine .ok (sameChanges_put cwd p goal goal' twin FileTree.leaf_empty ?_)
      rw [Option.not_isSome_iff_eq_none.1 vacant]
      simp

/-- A directory that is already there is accepted in both. -/
theorem finishDirectory_alike :
    (fs.finishDirectory cwd p).1 = (fs'.finishDirectory cwd p).1 ∧
      fs.SameChanges fs' (fs.finishDirectory cwd p).2 (fs'.finishDirectory cwd p).2 := by
  rw [finishDirectory, finishDirectory, isDirectory_alike shape cwd p]
  rcases (makeDirectory_alike shape cwd p).elim with
    ⟨e, failed, failed'⟩ | ⟨_, _, made, made', changes⟩
  · rw [failed, failed']
    exact ⟨rfl, .refl fs fs'⟩
  · rw [made, made']
    exact ⟨rfl, changes⟩

/-- Making a chain of directories stops at the same one, by induction along the chain. -/
theorem makeDirectoriesFrom_alike (ps : List Path) :
    (fs.makeDirectoriesFrom cwd ps).1 = (fs'.makeDirectoriesFrom cwd ps).1 ∧
      fs.SameChanges fs' (fs.makeDirectoriesFrom cwd ps).2 (fs'.makeDirectoriesFrom cwd ps).2 := by
  induction ps with
  | nil => exact ⟨rfl, .refl fs fs'⟩
  | cons p above ih =>
    rw [makeDirectoriesFrom, makeDirectoriesFrom, isDirectory_alike shape cwd p]
    split
    · exact ⟨rfl, .refl fs fs'⟩
    rcases (makeDirectory_alike shape cwd p).elim with
      ⟨e, failed, failed'⟩ | ⟨_, _, made, made', changes⟩
    · rw [failed, failed']
      cases e with
      | notFound =>
        simp only
        generalize fs.makeDirectoriesFrom cwd above = done at ih ⊢
        generalize fs'.makeDirectoriesFrom cwd above = done' at ih ⊢
        obtain ⟨r, files⟩ := done
        obtain ⟨r', files'⟩ := done'
        obtain ⟨rfl, changes⟩ : r = r' ∧ fs.SameChanges fs' files files' := ih
        cases r with
        | error e => exact ⟨rfl, changes⟩
        | ok _ =>
          obtain ⟨same, finish⟩ := finishDirectory_alike (changes.sameShape shape) cwd p
          exact ⟨same, changes.trans finish⟩
      | _ => exact ⟨rfl, .refl fs fs'⟩
    · rw [made, made']
      exact ⟨rfl, changes⟩

/-- Making directories ends alike and changes the same. -/
theorem makeDirectories_alike :
    (fs.makeDirectories cwd p).1 = (fs'.makeDirectories cwd p).1 ∧
      fs.SameChanges fs' (fs.makeDirectories cwd p).2 (fs'.makeDirectories cwd p).2 :=
  makeDirectoriesFrom_alike shape cwd p.ancestors

/-- Writing a text ends alike and changes the same. -/
theorem writeText_alike (text : String) :
    EndAlike (fs.SameChanges fs') (fs.writeText cwd p text) (fs'.writeText cwd p text) := by
  rw [writeText, writeText]
  rcases (target_alike shape cwd p).elim with ⟨e, failed, failed'⟩ | ⟨_, _, found, found', twin⟩
  · rw [failed, failed']
    exact .error e
  rw [found, found']
  cases twin with
  | none => exact .error _
  | @some t t' twin =>
    obtain ⟨before, slashes, goal⟩ := exists_targetOf found
    obtain ⟨before', slashes', goal'⟩ := exists_targetOf found'
    have changes := sameChanges_put cwd p goal goal' twin (FileTree.leaf_file (some text))
    have occupant := twin.occupant
    dsimp only [bind, Except.bind]
    rw [← twin.isTooLong]
    split
    · exact .error _
    split
    · exact .error _
    cases here : t.occupant? with
    | none =>
      rw [here] at occupant changes
      rw [Option.map_eq_none_iff.1 occupant.symm]
      exact .ok (changes (by simp))
    | some tree =>
      rw [here] at occupant changes
      obtain ⟨tree', here', same⟩ := Option.map_eq_some_iff.1 occupant.symm
      rw [here']
      cases tree with
      | file text =>
        cases tree' with
        | file text' => exact .ok (changes (by simp [FileTree.standing, Standing.isDirectory]))
        | directory d' => cases same
      | directory d =>
        cases tree' with
        | file text' => cases same
        | directory d' => exact .error _

/-! ### Reading -/

/-- A path that leads to the same contents in both is read alike. -/
theorem readText_alike
    (same : ∀ loc, fs.Reaches cwd p loc → fs.standing? loc = fs'.standing? loc) :
    fs.readText cwd p = fs'.readText cwd p := by
  rw [readText, readText]
  rcases (locate_alike shape cwd p).elim with
    ⟨e, failed, failed'⟩ | ⟨place, place', ok, ok', twin⟩
  · rw [failed, failed']
  · have here := same place.location ⟨place, ok, rfl⟩
    rw [twin.left.standing?, twin.location, twin.right.standing?, Option.some_inj] at here
    rw [ok, ok']
    dsimp only [bind, Except.bind]
    cases tree : place.here with
    | file text =>
      cases tree' : place'.here with
      | file text' =>
        rw [tree, tree'] at here
        rw [Standing.file.inj here]
      | directory d' =>
        rw [tree, tree'] at here
        cases here
    | directory d =>
      cases tree' : place'.here with
      | file text' =>
        rw [tree, tree'] at here
        cases here
      | directory d' => rfl

end FileSystem

end FlatDecls
