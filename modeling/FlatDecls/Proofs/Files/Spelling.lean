import FlatDecls.Proofs.Files.Components

/-!
# Where a path leads

The file that a path leads to (`FileSystem.fileOf`) depends on the path's components only, and on
the working directory if the path is relative (`FileSystem.fileOf_eq`): segments that change nothing
ask for a directory, and whatever is not at the end has to be one anyway. From the parent of a path
that leads to a file, other paths lead where they lead from the file's directory
(`FileSystem.reaches_join_iff`).
-/

namespace FlatDecls

/-- What a system lets stand under a name: no slash, and no character with number zero. -/
structure IsFileName (s : String) : Prop where
  name : IsName s
  noSlash : '/' ∉ s.toList
  noNul : ∀ c ∈ s.toList, c.toNat ≠ 0

/-- A proper name is a component that counts. -/
theorem IsName.isBusy {s : String} (h : IsName s) : Path.isBusy s = true := by
  simp [Path.isBusy, h.1, h.2.1]

namespace FileSystem

variable {fs : FileSystem} {cwd loc goal : Location} {p q : Path} {segments : List String}
  {s : String}

/-! ### Files -/

/-- The location of the regular file that segments lead to from the root. -/
def fileAt (fs : FileSystem) (segments : List String) : Option Location :=
  match fs.start.follow segments with
  | .ok ⟨.file _, way⟩ => some (Place.location ⟨.directory .empty, way⟩)
  | _ => none

/-- The location of the regular file that a path leads to. -/
def fileOf (fs : FileSystem) (cwd : Location) (p : Path) : Option Location :=
  if p.refused?.isSome then none else fs.fileAt (p.segmentsFrom cwd)

/-- A regular file stands at the location. -/
def HasFile (fs : FileSystem) (loc : Location) : Prop :=
  ∃ text, fs.standing? loc = some (.file text)

/-- The file at the end of some segments is where they lead, if there is one. -/
theorem fileAt_eq_some_iff :
    fs.fileAt segments = some loc ↔ fs.Leads [] segments loc ∧ fs.HasFile loc := by
  rw [fileAt]
  constructor
  · intro h
    split at h
    next text way followed =>
      obtain rfl := Option.some.inj h
      obtain ⟨inside, leads⟩ := Place.In.root.leads_of_follow followed
      exact ⟨leads, text, inside.standing?⟩
    · cases h
  · rintro ⟨leads, text, file⟩
    obtain ⟨⟨here, way⟩, followed, rfl⟩ := Place.In.root.follow_of_leads leads
    obtain ⟨inside, -⟩ := Place.In.root.leads_of_follow followed
    have top := inside.standing?.symm.trans file
    cases here with
    | file text => rw [followed]; rfl
    | directory d => cases top

/-- A path names the file that it reaches. -/
theorem fileOf_eq_some_iff :
    fs.fileOf cwd p = some loc ↔ fs.Reaches cwd p loc ∧ fs.HasFile loc := by
  rw [fileOf, reaches_iff]
  cases p.refused? with
  | none => simp [fileAt_eq_some_iff]
  | some e => simp

/-- A path is taken for a file if it names one. -/
theorem isFile_eq (fs : FileSystem) (cwd : Location) (p : Path) :
    fs.isFile cwd p = (fs.fileOf cwd p).isSome := by
  rw [isFile, locate, fileOf]
  cases p.refused? with
  | some e => rfl
  | none =>
    simp only [Option.isSome_none, Bool.false_eq_true, if_false, fileAt]
    cases fs.start.follow (p.segmentsFrom cwd) with
    | error e => rfl
    | ok place =>
      obtain ⟨here, way⟩ := place
      cases here <;> rfl

/-- What can be read is a file. -/
theorem exists_fileOf_of_readText {text : String} (h : fs.readText cwd p = .ok text) :
    ∃ loc, fs.fileOf cwd p = some loc := by
  rw [readText] at h
  cases located : fs.locate cwd p with
  | error e =>
    rw [located] at h
    cases h
  | ok place =>
    rw [located] at h
    have stands := (in_of_locate located).standing?
    refine ⟨place.location, fileOf_eq_some_iff.2 ⟨⟨place, located, rfl⟩, ?_⟩⟩
    cases here : place.here with
    | file text => exact ⟨text, by rw [stands, here]; rfl⟩
    | directory d => simp [here, bind, Except.bind] at h

/-! ### Idle segments -/

/-- Segments that change nothing can be left out in front of another segment. -/
theorem leads_filter_iff :
    fs.Leads loc (segments.filter Path.isBusy ++ [s]) goal ↔
      fs.Leads loc (segments ++ [s]) goal := by
  induction segments generalizing loc with
  | nil => rfl
  | cons first rest ih =>
    by_cases changes : Path.isBusy first = true
    · rw [List.filter_cons_of_pos changes]
      have notIdle : ¬ (first = "" ∨ first = ".") := by
        simpa [Path.isBusy] using changes
      constructor
      · intro h
        cases h with
        | idle dir idle next => exact absurd idle notIdle
        | up dir next => exact .up dir (ih.1 next)
        | down dir name found next => exact .down dir name found (ih.1 next)
      · intro h
        cases h with
        | idle dir idle next => exact absurd idle notIdle
        | up dir next => exact .up dir (ih.2 next)
        | down dir name found next => exact .down dir name found (ih.2 next)
    · rw [List.filter_cons_of_neg changes, ih]
      have isIdle : first = "" ∨ first = "." := by
        simpa [Path.isBusy, Classical.or_iff_not_imp_left] using changes
      constructor
      · exact fun h ↦ .idle (h.standing_of_ne_nil (by simp)) isIdle h
      · intro h
        cases h with
        | idle dir idle next => exact next
        | up dir next => exact absurd isIdle (by decide)
        | down dir name found next => exact absurd isIdle (not_or.2 ⟨name.1, name.2.1⟩)

/-- Empty segments and dots on the way to a file can be left out: the place in front of the last
segment must be a directory in any case. -/
theorem fileAt_filter (front back : List String) (s : String) :
    fs.fileAt (front ++ back.filter Path.isBusy ++ [s]) = fs.fileAt (front ++ back ++ [s]) := by
  have busy : (front ++ back.filter Path.isBusy).filter Path.isBusy =
      (front ++ back).filter Path.isBusy := by
    rw [List.filter_append, List.filter_append, List.filter_filter]
    simp
  refine Option.ext fun loc ↦ ?_
  have same : fs.Leads [] (front ++ back.filter Path.isBusy ++ [s]) loc ↔
      fs.Leads [] (front ++ back ++ [s]) loc := by
    rw [← leads_filter_iff, busy, leads_filter_iff]
  rw [fileAt_eq_some_iff, fileAt_eq_some_iff, same]

/-! ### Locations -/

/-- What stands below something stands in directories. -/
theorem standing?_of_append {rest : Location} (h : (fs.standing? (loc ++ rest)).isSome)
    (more : rest ≠ []) : fs.standing? loc = some .directory := by
  rw [standing?, find?, FileTree.find?_append] at h
  rw [standing?, find?]
  cases found : (FileTree.directory fs.root).find? loc with
  | none =>
    rw [found] at h
    cases h
  | some t =>
    cases t with
    | directory d => rfl
    | file text =>
      obtain ⟨name, below, rfl⟩ := List.exists_cons_of_ne_nil more
      rw [found] at h
      cases h

/-- Above a directory there is a directory. -/
theorem standing?_dropLast (h : fs.standing? loc = some .directory) :
    fs.standing? loc.dropLast = some .directory := by
  rcases List.eq_nil_or_concat loc with rfl | ⟨above, name, rfl⟩
  · exact h
  · rw [List.concat_eq_append, List.dropLast_concat]
    rw [List.concat_eq_append] at h
    exact standing?_of_append (by rw [h]; rfl) (List.cons_ne_nil _ _)

/-- A file stands under the last segment of each path that leads to it, in the directory to which
the segments before lead. -/
theorem exists_name_of_hasFile (leads : fs.Leads [] segments loc) (file : fs.HasFile loc) :
    ∃ front s above, segments = front ++ [s] ∧ IsName s ∧ fs.Leads [] front above ∧
      fs.standing? above = some .directory ∧ loc = above ++ [s] := by
  obtain ⟨text, file⟩ := file
  rcases List.eq_nil_or_concat segments with rfl | ⟨front, s, rfl⟩
  · cases leads
    cases file
  rw [List.concat_eq_append] at leads ⊢
  obtain ⟨above, first, last⟩ := leads.exists_mid
  cases last with
  | idle dir idle next =>
    cases next
    cases dir.symm.trans file
  | up dir next =>
    cases next
    cases (standing?_dropLast dir).symm.trans file
  | down dir name found next =>
    cases next
    exact ⟨front, s, above, rfl, name, first, dir, rfl⟩

/-- Names lead to the location that they make up. -/
theorem Leads.eq_append {names : List String} (leads : fs.Leads loc names goal)
    (h : ∀ s ∈ names, IsName s) : goal = loc ++ names := by
  induction leads with
  | done loc => rw [List.append_nil]
  | idle dir idle next ih =>
    have ⟨first, _⟩ := List.forall_mem_cons.1 h
    exact absurd idle (not_or.2 ⟨first.1, first.2.1⟩)
  | up dir next ih => exact absurd rfl (List.forall_mem_cons.1 h).1.2.2.1
  | down dir name found next ih => rw [ih (List.forall_mem_cons.1 h).2, ← List.append_cons]

/-- Names lead to whatever stands there. -/
theorem leads_of_present {names : List String} (h : ∀ s ∈ names, IsName s)
    (present : (fs.standing? (loc ++ names)).isSome) : fs.Leads loc names (loc ++ names) := by
  induction names generalizing loc with
  | nil =>
    rw [List.append_nil]
    exact .done _
  | cons s names ih =>
    have ⟨first, others⟩ := List.forall_mem_cons.1 h
    have dir := standing?_of_append present (List.cons_ne_nil s names)
    rw [List.append_cons] at present ⊢
    refine .down dir first ?_ (ih others present)
    cases names with
    | nil => simpa using present
    | cons next names =>
      rw [standing?_of_append present (List.cons_ne_nil next names)]
      rfl

/-- At names stands a file exactly if they lead to it. -/
theorem fileAt_names (fs : FileSystem) {names : Location} (h : ∀ s ∈ names, IsName s) :
    fs.fileAt names = none ↔ ¬ fs.HasFile names := by
  rw [Option.eq_none_iff_forall_ne_some]
  constructor
  · rintro none ⟨text, file⟩
    have leads : fs.Leads [] names ([] ++ names) :=
      leads_of_present h (by rw [List.nil_append, file]; rfl)
    exact none names (fileAt_eq_some_iff.2 ⟨leads, text, file⟩)
  · intro none loc found
    obtain ⟨leads, file⟩ := fileAt_eq_some_iff.1 found
    rw [leads.eq_append h, List.nil_append] at file
    exact none file

/-! ### Paths -/

end FileSystem

/-- No character of these texts has number zero. -/
def nulFree (texts : List String) : Bool := texts.all fun s ↦ s.toList.all (·.toNat ≠ 0)

theorem nulFree_append (xs ys : List String) : nulFree (xs ++ ys) = (nulFree xs && nulFree ys) :=
  List.all_append

namespace Path

variable {cwd : Location} {p q : Path}

/-- Where the segments of a path are followed from. -/
def base (cwd : Location) (p : Path) : Location := if p.isAbsolute then [] else cwd

/-- A relative path goes on from the working directory, an absolute one from the root. -/
theorem segmentsFrom_eq (cwd : Location) (p : Path) :
    p.segmentsFrom cwd = p.base cwd ++ p.segments := by
  rw [segmentsFrom, base]
  split <;> rfl

/-- A character that is no slash stands in one of the pieces. -/
theorem exists_piece_iff {c : Char} (noSlash : c ≠ '/') (cs : List Char) :
    (∃ piece ∈ splitSlash cs, c ∈ piece) ↔ c ∈ cs := by
  induction cs with
  | nil => simp [splitSlash]
  | cons first rest ih =>
    rw [splitSlash, List.mem_cons, ← ih]
    split
    next slash => simp [slash, noSlash]
    next =>
      obtain ⟨piece, pieces, split⟩ := List.exists_cons_of_ne_nil (splitSlash_ne_nil rest)
      rw [split]
      simp [Text.extendFirst, or_assoc]

/-- A path has a NUL character exactly if one of its components has one. -/
theorem nulFree_components (p : Path) :
    nulFree p.components = !p.text.toList.any (·.toNat = 0) := by
  have pieces : nulFree p.components = true ↔
      ∀ piece ∈ splitSlash p.text.toList, isIdle piece = false → ∀ c ∈ piece, c.toNat ≠ 0 := by
    simp [nulFree, components_eq, busyPieces, ← Bool.not_eq_true, Classical.or_iff_not_imp_left]
  rw [Bool.eq_iff_iff, pieces, Bool.not_eq_true', List.any_eq_false]
  constructor
  · intro free c mem
    rw [decide_eq_true_eq]
    intro nul
    have noSlash : c ≠ '/' := by
      rintro rfl
      cases nul
    obtain ⟨piece, found, inside⟩ := (exists_piece_iff noSlash _).2 mem
    refine free piece found ?_ c inside nul
    rw [isIdle, Bool.or_eq_false_iff, beq_eq_false_iff_ne, beq_eq_false_iff_ne]
    constructor
    · rintro rfl
      cases inside
    · rintro rfl
      obtain rfl := List.mem_singleton.1 inside
      cases nul
  · intro free piece found _ c inside
    have noSlash : c ≠ '/' := by
      rintro rfl
      exact slash_notMem_of_mem_splitSlash found inside
    simpa using free c ((exists_piece_iff noSlash _).1 ⟨piece, found, inside⟩)

variable {d : Path} {s : String}

/-- Does the path end in a segment that changes something? -/
def endsBusy (p : Path) : Bool := p.segments.getLast?.any isBusy

theorem exists_segments_concat (p : Path) : ∃ front s, p.segments = front ++ [s] := by
  have some : p.segments ≠ [] := by simp [segments, splitSlash_ne_nil]
  exact ⟨_, _, (List.dropLast_concat_getLast some).symm⟩

/-- A path that ends with a name has a component. -/
theorem components_ne_nil (h : p.endsBusy = true) : p.components ≠ [] := by
  obtain ⟨front, s, split⟩ := p.exists_segments_concat
  rw [endsBusy, split, List.getLast?_concat, Option.any_some] at h
  rw [components, split, List.filter_append, List.filter_cons_of_pos h]
  simp

/-- A join ends in what the second path ends in. -/
theorem endsBusy_join (relative : q.isAbsolute = false) : (p.join q).endsBusy = q.endsBusy := by
  obtain ⟨before, whole, -⟩ := exists_segments_join relative (p := p)
  obtain ⟨front, s, split⟩ := q.exists_segments_concat
  rw [endsBusy, endsBusy, whole, split, ← List.append_assoc, List.getLast?_concat,
    List.getLast?_concat]

/-- A joined path has at most one byte more than its parts. -/
theorem utf8ByteSize_join (p q : Path) :
    (p.join q).text.utf8ByteSize ≤ p.text.utf8ByteSize + q.text.utf8ByteSize + 1 := by
  rw [join]
  split
  · omega
  split
  · rw [String.utf8ByteSize_append]
    omega
  · have slash : "/".utf8ByteSize = 1 := rfl
    rw [String.utf8ByteSize_append, String.utf8ByteSize_append, slash]
    omega

/-- It is at least as long as the path that was joined, so it is refused for its length if that
is. -/
theorem utf8ByteSize_le_join (p q : Path) :
    q.text.utf8ByteSize ≤ (p.join q).text.utf8ByteSize := by
  rw [join]
  split
  · rfl
  split
  · rw [String.utf8ByteSize_append]
    omega
  · rw [String.utf8ByteSize_append]
    omega

end Path

namespace FileSystem

variable {fs : FileSystem} {cwd : Location} {p : Path}

/-- A path leads to a file depending on its components: none may hold the character with number
zero, and the path must end in one of them. -/
theorem fileOf_eq (fs : FileSystem) (cwd : Location) (fits : p.text.utf8ByteSize < pathLimit) :
    fs.fileOf cwd p =
      if nulFree p.components && p.endsBusy then fs.fileAt (p.base cwd ++ p.components)
      else none := by
  rw [fileOf, Path.refused?, Path.nulFree_components]
  split
  next nul => simp [nul]
  next nul =>
  obtain ⟨front, s, split⟩ := p.exists_segments_concat
  have ends : p.endsBusy = Path.isBusy s := by
    rw [Path.endsBusy, split, List.getLast?_concat, Option.any_some]
  split
  next empty =>
    rw [Path.isEmpty_iff] at empty
    have idle : p.endsBusy = false :=
      Bool.eq_false_iff.2 fun busy ↦ Path.components_ne_nil busy empty.2
    simp [idle]
  next =>
    have seen : p.segmentsFrom cwd = p.base cwd ++ front ++ [s] := by
      rw [Path.segmentsFrom_eq, split, List.append_assoc]
    rw [if_neg (Nat.not_le.2 fits), Bool.eq_false_iff.2 nul, seen, ends]
    cases busy : Path.isBusy s with
    | true =>
      have changing : p.components = front.filter Path.isBusy ++ [s] := by
        rw [Path.components, split, List.filter_append, List.filter_cons_of_pos busy,
          List.filter_nil]
      rw [changing, ← List.append_assoc, fileAt_filter]
      rfl
    | false =>
      have nothing : fs.fileAt (p.base cwd ++ front ++ [s]) = none := by
        refine Option.eq_none_iff_forall_not_mem.2 fun loc found ↦ ?_
        obtain ⟨leads, file⟩ := fileAt_eq_some_iff.1 found
        obtain ⟨_, name, _, last, isName, -⟩ := exists_name_of_hasFile leads file
        obtain ⟨rfl, -⟩ := List.cons.inj (List.append_inj' last rfl).2
        rw [isName.isBusy] at busy
        cases busy
      rw [nothing]
      rfl

/-- A path that leads to a regular file has components, so it has a parent. -/
theorem components_ne_nil_of_fileOf (h : (fs.fileOf cwd p).isSome) : p.components ≠ [] := by
  have fits : p.text.utf8ByteSize < pathLimit := by
    rw [fileOf] at h
    cases accepted : p.refused? with
    | none => exact (Path.refused?_eq_none_iff.1 accepted).2.2
    | some e => simp [accepted] at h
  rw [fs.fileOf_eq cwd fits] at h
  refine Path.components_ne_nil ?_
  cases busy : p.endsBusy with
  | true => rfl
  | false => simp [busy] at h

end FileSystem

/-! ### Beside a file -/

namespace FileSystem

variable {fs : FileSystem} {cwd loc mid goal : Location} {front front' segments : List String}
  {path root q : Path}

/-- Behind what leads to a location, segments lead on from there. -/
theorem leads_append_iff (first : fs.Leads [] front mid) :
    fs.Leads [] (front ++ segments) goal ↔ fs.Leads mid segments goal := by
  constructor
  · intro h
    obtain ⟨mid', first', second⟩ := h.exists_mid
    obtain ⟨place, followed, rfl⟩ := Place.In.root.follow_of_leads first
    obtain ⟨place', followed', rfl⟩ := Place.In.root.follow_of_leads first'
    obtain rfl : place = place' := Except.ok.inj (followed.symm.trans followed')
    exact second
  · exact first.trans

/-- In front of other segments, only the segments that change something count. -/
theorem leads_congr (same : front.filter Path.isBusy = front'.filter Path.isBusy)
    (some : segments ≠ []) :
    fs.Leads loc (front ++ segments) goal ↔ fs.Leads loc (front' ++ segments) goal := by
  obtain ⟨before, s, rfl⟩ : ∃ before s, segments = before ++ [s] :=
    ⟨_, _, (List.dropLast_concat_getLast some).symm⟩
  rw [← List.append_assoc, ← List.append_assoc, ← leads_filter_iff, List.filter_append, same,
    ← List.filter_append, leads_filter_iff]

/-- A path that is joined to the parent of a file's path leads where it leads from the directory
that the file is in. -/
theorem reaches_join_iff (file : fs.fileOf cwd path = some loc) (up : path.parent = some root)
    (relative : q.isAbsolute = false) (accepted : (root.join q).refused? = none) :
    fs.Reaches cwd (root.join q) goal ↔ fs.Leads loc.dropLast q.segments goal := by
  have some : path.components ≠ [] := components_ne_nil_of_fileOf (by rw [file]; rfl)
  have fits : path.text.utf8ByteSize < pathLimit := by
    have reaches := (fileOf_eq_some_iff.1 file).1
    exact (Path.refused?_eq_none_iff.1 (reaches_iff.1 reaches).1).2.2
  obtain ⟨-, name, split⟩ := Path.parent_spec up some
  have base : path.base cwd = root.base cwd := by
    rw [Path.base, Path.base, Path.isAbsolute_parent up]
  have above : fs.Leads [] (root.base cwd ++ root.components) loc.dropLast := by
    rw [fs.fileOf_eq cwd fits, base, split, ← List.append_assoc] at file
    obtain ⟨leads, file⟩ := fileAt_eq_some_iff.1 (Option.ite_none_right_eq_some.1 file).2
    obtain ⟨_, _, above, last, -, before, -, rfl⟩ := exists_name_of_hasFile leads file
    rw [List.dropLast_concat, (List.append_inj' last rfl).1]
    exact before
  obtain ⟨front, whole, busy⟩ := Path.exists_segments_join relative (p := root)
  have same : (root.base cwd ++ front).filter Path.isBusy =
      (root.base cwd ++ root.components).filter Path.isBusy := by
    rw [List.filter_append, List.filter_append, busy, Path.components, List.filter_filter]
    simp
  have seen : (root.join q).segmentsFrom cwd = root.base cwd ++ front ++ q.segments := by
    rw [Path.segmentsFrom_eq, Path.base, Path.isAbsolute_join relative, ← Path.base, whole,
      List.append_assoc]
  have more : q.segments ≠ [] := by simp [Path.segments, Path.splitSlash_ne_nil]
  rw [reaches_iff, seen, leads_congr same more, leads_append_iff above]
  exact and_iff_right accepted

end FileSystem

/-! ### The path of a location -/

namespace Location

variable {loc : Location}

/-- A location is written with a slash in front of every name. -/
theorem toList_path (loc : Location) :
    loc.path.text.toList = '/' :: Path.joinSlash (loc.map String.toList) := by
  rw [path, String.toList_append, String.toList_intercalate]
  rfl

theorem isAbsolute_path (loc : Location) : loc.path.isAbsolute = true := by
  rw [Path.isAbsolute, toList_path]
  rfl

/-- The components of a location's path are its names. -/
theorem components_path (h : ∀ s ∈ loc, IsFileName s) : loc.path.components = loc := by
  have noSlash : ∀ piece ∈ loc.map String.toList, '/' ∉ piece := by
    simpa using fun s mem ↦ (h s mem).noSlash
  have busy : ∀ piece ∈ loc.map String.toList, (!Path.isIdle piece) = true := by
    refine List.forall_mem_map.2 fun s mem ↦ ?_
    rw [← Path.isBusy_ofList, String.ofList_toList]
    exact (h s mem).name.isBusy
  have pieces : Path.busyPieces (Path.splitSlash loc.path.text.toList) = loc.map String.toList := by
    rw [toList_path]
    exact (Path.busyPieces_joinSlash noSlash).trans (List.filter_eq_self.2 busy)
  rw [Path.components_eq, pieces, List.map_map]
  simp [Function.comp_def]

end Location

end FlatDecls
