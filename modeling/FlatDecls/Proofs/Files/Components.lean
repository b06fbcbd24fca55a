import Mathlib.Data.List.Infix
import FlatDecls.Proofs.Files.Parents

/-!
# Components of a path

The components of a path are its segments that change something: names and `..`. What else a path
shows is its head, the root or a dot in front (`Path.head`). Two paths are written alike if they
agree in both (`Path.WrittenAlike`); slashes that are repeated or stand at the end make no
difference, nor do dots behind the first segment.

Operations on the text of a path are operations on its components: the parent is without the last
one (`Path.components_parent`), and joining puts those of one path behind those of the other
(`Path.components_join`).
-/

namespace FlatDecls.Path

variable {p q d : Path}

/-- Does a segment change something? -/
def isBusy (segment : String) : Bool := segment != "" && segment != "."

/-- The segments of a path that change something, in order. -/
def components (p : Path) : List String := p.segments.filter isBusy

/-- What taking parents leaves alone: the root, a dot in front, or nothing. -/
def head (p : Path) : List Char := (splitHead p.text.toList).1

/-- Two paths that differ at most in segments that change nothing. -/
structure WrittenAlike (p q : Path) : Prop where
  head : p.head = q.head
  components : p.components = q.components

/-! ### Pieces -/

/-- The pieces that change something. -/
def busyPieces (pieces : List (List Char)) : List (List Char) := pieces.filter (!isIdle ·)

/-- A component that counts is a piece that is neither empty nor a dot. -/
theorem isBusy_ofList (piece : List Char) : isBusy (String.ofList piece) = !isIdle piece := by
  have empty : String.ofList piece = "" ↔ piece = [] := String.ofList_eq_empty_iff
  have dot : String.ofList piece = "." ↔ piece = ['.'] := by
    rw [← String.toList_inj, String.toList_ofList]
    rfl
  rw [Bool.eq_iff_iff]
  simp [isBusy, isIdle, empty, dot]

/-- The components of a path are the pieces between its slashes, without the idle ones. -/
theorem components_eq (p : Path) :
    p.components = (busyPieces (splitSlash p.text.toList)).map String.ofList := by
  rw [components, segments, List.filter_map, busyPieces]
  congr 2
  funext piece
  exact isBusy_ofList piece

theorem busyPieces_append (xs ys : List (List Char)) :
    busyPieces (xs ++ ys) = busyPieces xs ++ busyPieces ys := List.filter_append xs ys

/-- The head of a path has no components. -/
theorem busyPieces_body (cs : List Char) :
    busyPieces (splitSlash (splitHead cs).2) = busyPieces (splitSlash cs) := by
  fun_cases splitHead cs with
  | case1 rest => rfl
  | case2 => rfl
  | case3 rest => rfl
  | case4 cs => rfl

/-- Idle pieces at the end can be dropped: they are no components. -/
theorem busyPieces_dropIdle (pieces : List (List Char)) :
    busyPieces (dropIdle pieces) = busyPieces pieces := by
  have cut := congrArg busyPieces
    (List.takeWhile_append_dropWhile (p := isIdle) (l := pieces.reverse))
  have idle : busyPieces (pieces.reverse.takeWhile isIdle) = [] := by
    refine List.filter_eq_nil_iff.2 fun piece mem ↦ ?_
    simpa using List.all_eq_true.1 List.all_takeWhile piece mem
  rw [busyPieces_append, idle, List.nil_append] at cut
  rw [busyPieces, busyPieces] at cut
  rw [busyPieces, busyPieces, dropIdle, List.filter_reverse, cut, List.filter_reverse,
    List.reverse_reverse]

/-- The last piece that is not idle is the last one that changes something. -/
theorem busyPieces_dropLast {pieces : List (List Char)} (h : dropIdle pieces ≠ []) :
    busyPieces pieces = busyPieces (dropIdle pieces).dropLast ++ [(dropIdle pieces).getLast h] := by
  have last : busyPieces [(dropIdle pieces).getLast h] = [(dropIdle pieces).getLast h] := by
    simp [busyPieces, isIdle_getLast_dropIdle h]
  conv => lhs; rw [← busyPieces_dropIdle, ← List.dropLast_concat_getLast h, busyPieces_append, last]

/-- Nothing remains of pieces exactly if all of them are idle. -/
theorem dropIdle_eq_nil_iff {pieces : List (List Char)} :
    dropIdle pieces = [] ↔ busyPieces pieces = [] := by
  constructor
  · intro none
    rw [← busyPieces_dropIdle, none]
    rfl
  · intro none
    refine Classical.byContradiction fun some ↦ ?_
    rw [busyPieces_dropLast some] at none
    simp at none

/-- Pieces are cut at every slash, so none is left inside. -/
theorem slash_notMem_of_mem_splitSlash {cs piece : List Char} (h : piece ∈ splitSlash cs) :
    '/' ∉ piece := by
  induction cs generalizing piece with
  | nil =>
    obtain rfl := List.mem_singleton.1 h
    exact List.not_mem_nil
  | cons c rest ih =>
    rw [splitSlash] at h
    split at h
    · rcases List.mem_cons.1 h with rfl | h
      · exact List.not_mem_nil
      · exact ih h
    next noSlash =>
      obtain ⟨first, more, split⟩ := List.exists_cons_of_ne_nil (splitSlash_ne_nil rest)
      rw [split] at h ih
      rcases List.mem_cons.1 h with rfl | h
      · rw [List.mem_cons, not_or]
        exact ⟨fun same ↦ noSlash same.symm, ih List.mem_cons_self⟩
      · exact ih (List.mem_cons_of_mem _ h)

/-- A text without a slash is one piece. -/
theorem splitSlash_of_notMem {cs : List Char} (h : '/' ∉ cs) : splitSlash cs = [cs] := by
  induction cs with
  | nil => rfl
  | cons c rest ih =>
    rw [List.mem_cons, not_or] at h
    rw [splitSlash, if_neg (Ne.symm h.1), ih h.2]
    rfl

/-- Pieces without slashes are cut back from what they join to. -/
theorem splitSlash_joinSlash {pieces : List (List Char)} (some : pieces ≠ [])
    (h : ∀ piece ∈ pieces, '/' ∉ piece) : splitSlash (joinSlash pieces) = pieces := by
  induction pieces with
  | nil => exact absurd rfl some
  | cons piece pieces ih =>
    have ⟨first, others⟩ := List.forall_mem_cons.1 h
    have single : splitSlash (joinSlash [piece]) = [piece] := by
      rw [joinSlash, List.intercalate_singleton]
      exact splitSlash_of_notMem first
    cases pieces with
    | nil => exact single
    | cons next pieces =>
      have more : next :: pieces ≠ [] := List.cons_ne_nil _ _
      rw [← List.singleton_append, joinSlash_append (List.cons_ne_nil _ _) more, splitSlash_append,
        single, ih more others]

/-- Pieces without slashes change as much as what they join to. -/
theorem busyPieces_joinSlash {pieces : List (List Char)} (h : ∀ piece ∈ pieces, '/' ∉ piece) :
    busyPieces (splitSlash (joinSlash pieces)) = busyPieces pieces := by
  cases pieces with
  | nil => rfl
  | cons piece pieces => rw [splitSlash_joinSlash (List.cons_ne_nil _ _) h]

/-! ### Heads -/

/-- Behind the first of joined pieces there is a slash or nothing. -/
theorem exists_joinSlash_cons (first : List Char) (more : List (List Char)) :
    ∃ tail, joinSlash (first :: more) = first ++ tail ∧
      (tail = [] ∨ ∃ rest, tail = '/' :: rest) := by
  cases more with
  | nil => exact ⟨[], by simp [joinSlash], .inl rfl⟩
  | cons next more =>
    refine ⟨'/' :: joinSlash (next :: more), ?_, .inr ⟨_, rfl⟩⟩
    rw [← List.singleton_append, joinSlash_append (List.cons_ne_nil _ _) (List.cons_ne_nil _ _)]
    simp [joinSlash]

/-- A path has no head if it begins with a name. -/
theorem splitHead_of_first {first tail : List Char} (noSlash : '/' ∉ first) (some : first ≠ [])
    (noDot : first ≠ ['.']) : splitHead (first ++ tail) = ([], first ++ tail) := by
  obtain ⟨c, more, rfl⟩ := List.exists_cons_of_ne_nil some
  rw [List.mem_cons, not_or] at noSlash
  refine splitHead.eq_4 _ (fun rest root ↦ ?_) (fun dot ↦ ?_) (fun rest dots ↦ ?_)
  · exact noSlash.1 (List.cons.inj root).1.symm
  · obtain ⟨rfl, none⟩ := List.cons.inj dot
    exact noDot (congrArg _ (List.append_eq_nil_iff.1 none).1)
  · obtain ⟨rfl, slash⟩ := List.cons.inj dots
    cases more with
    | nil => exact noDot rfl
    | cons next more => exact noSlash.2 ((List.cons.inj slash).1 ▸ List.mem_cons_self)

/-- The head of a path and some of its first pieces make up a path of the same head. -/
theorem splitHead_of_prefix {cs : List Char} {pieces : List (List Char)}
    (h : pieces <+: splitSlash (splitHead cs).2) :
    splitHead ((splitHead cs).1 ++ joinSlash pieces) = ((splitHead cs).1, joinSlash pieces) := by
  revert h
  fun_cases splitHead cs with
  | case1 rest => exact fun _ ↦ rfl
  | case2 =>
    intro h
    cases pieces with
    | nil => rfl
    | cons first more =>
      obtain ⟨rfl, rest⟩ := List.cons_prefix_cons.1 h
      obtain rfl := List.prefix_nil.1 rest
      rfl
  | case3 rest =>
    intro h
    cases pieces with
    | nil => rfl
    | cons first more =>
      obtain ⟨rfl, -⟩ := List.cons_prefix_cons.1 h
      cases more <;> rfl
  | case4 cs noRoot noDot noDots =>
    intro h
    replace h : pieces <+: splitSlash cs := h
    rw [List.nil_append]
    cases pieces with
    | nil => rfl
    | cons first more =>
      have noSlash := slash_notMem_of_mem_splitSlash (h.subset List.mem_cons_self)
      obtain ⟨others, whole⟩ := h
      obtain ⟨tail, cut, start⟩ := exists_joinSlash_cons first (more ++ others)
      rw [← List.cons_append, whole, joinSlash_splitSlash] at cut
      obtain ⟨tail', join, -⟩ := exists_joinSlash_cons first more
      by_cases none : first = []
      · -- a path that does not begin at the root has an empty first piece only if it is empty
        have empty : cs = [] := by
          rcases start with rfl | ⟨rest, rfl⟩
          · rw [cut, none, List.append_nil]
          · rw [none] at cut
            exact absurd cut (noRoot rest)
        rw [empty, List.cons_append] at whole
        obtain ⟨-, last⟩ := List.cons.inj whole
        rw [none, (List.append_eq_nil_iff.1 last).1]
        rfl
      · rw [join]
        refine splitHead_of_first noSlash none ?_
        rintro rfl
        rcases start with rfl | ⟨rest, rfl⟩
        · exact noDot cut
        · exact noDots rest cut

/-- A path is absolute if its head is the slash. -/
theorem isAbsolute_iff : p.isAbsolute = true ↔ p.head = ['/'] := by
  rw [isAbsolute, head]
  generalize p.text.toList = cs
  fun_cases splitHead cs with
  | case1 rest => simp
  | case2 => simp
  | case3 rest => simp
  | case4 cs noRoot =>
    cases cs with
    | nil => simp
    | cons c rest =>
      have other : c ≠ '/' := by
        rintro rfl
        exact noRoot rest rfl
      simp [other]

/-- Only the empty path has neither head nor components. -/
theorem isEmpty_iff : p.isEmpty = true ↔ p.head = [] ∧ p.components = [] := by
  obtain ⟨text⟩ := p
  constructor
  · intro empty
    obtain rfl : text = "" := by simpa [isEmpty] using empty
    exact ⟨rfl, rfl⟩
  · rintro ⟨noHead, none⟩
    rw [components_eq, List.map_eq_nil_iff] at none
    obtain ⟨first, more, split⟩ := List.exists_cons_of_ne_nil (splitSlash_ne_nil text.toList)
    have whole := joinSlash_splitSlash text.toList
    obtain ⟨tail, join, start⟩ := exists_joinSlash_cons first more
    rw [split, join] at whole
    have idle : isIdle first = true := by
      have := List.filter_eq_nil_iff.1 none first (split ▸ List.mem_cons_self)
      simpa using this
    rw [head, ← whole] at noHead
    simp only [isIdle, Bool.or_eq_true, beq_iff_eq] at idle
    rcases idle with rfl | rfl <;> rcases start with rfl | ⟨rest, rfl⟩
    · simpa [isEmpty] using whole.symm
    all_goals cases noHead

/-! ### Parents -/

/-- Only a path without components can be without parent. -/
theorem exists_parent (h : p.components ≠ []) : ∃ q, p.parent = some q := by
  have some : dropIdle (splitSlash (splitHead p.text.toList).2) ≠ [] := by
    intro none
    rw [dropIdle_eq_nil_iff, busyPieces_body] at none
    rw [components_eq, none] at h
    exact h rfl
  simp only [parent]
  exact ⟨_, rfl⟩

/-- A path without a parent has no components. -/
theorem components_of_parent_eq_none (h : p.parent = none) : p.components = [] := by
  refine Classical.byContradiction fun some ↦ ?_
  obtain ⟨q, parent⟩ := exists_parent some
  cases h.symm.trans parent

/-- The parent of a path with components has the same head and one component less. -/
theorem parent_spec (h : p.parent = some q) (some : p.components ≠ []) :
    q.head = p.head ∧ ∃ last, p.components = q.components ++ [last] := by
  simp only [parent] at h
  split at h
  next none =>
    rw [dropIdle_eq_nil_iff, busyPieces_body] at none
    rw [components_eq, none] at some
    exact absurd rfl some
  next changing =>
    obtain rfl := Option.some.inj h
    have whole : dropIdle (dropIdle (splitSlash (splitHead p.text.toList).2)).dropLast <+:
        splitSlash (splitHead p.text.toList).2 :=
      (isPrefix_dropIdle _).trans ((List.dropLast_prefix _).trans (isPrefix_dropIdle _))
    have split := splitHead_of_prefix whole
    have body := busyPieces_dropLast changing
    constructor
    · rw [head, String.toList_ofList, split, head]
    · refine ⟨String.ofList ((dropIdle _).getLast changing), ?_⟩
      rw [components_eq, components_eq, ← busyPieces_body, body, String.toList_ofList,
        ← busyPieces_body (_ ++ _), split, busyPieces_joinSlash, busyPieces_dropIdle,
        List.map_append, List.map_singleton]
      exact fun piece mem ↦ slash_notMem_of_mem_splitSlash (whole.subset mem)

/-- Without components only a dot has a parent, which is the empty path. -/
theorem parent_eq_empty (h : p.parent = some q) (none : p.components = []) :
    p.head = ['.'] ∧ q = ⟨""⟩ := by
  simp only [parent] at h
  split at h
  next =>
    split at h
    next dot => exact ⟨dot, (Option.some.inj h).symm⟩
    next => cases h
  next changing =>
    rw [components_eq, List.map_eq_nil_iff, ← busyPieces_body, ← dropIdle_eq_nil_iff] at none
    exact absurd none changing

/-- Taking the parent takes the last component away. -/
theorem components_parent (h : p.parent = some q) : q.components = p.components.dropLast := by
  by_cases none : p.components = []
  · rw [(parent_eq_empty h none).2, none]
    rfl
  · obtain ⟨-, last, split⟩ := parent_spec h none
    rw [split, List.dropLast_concat]

/-- Going up does not make a relative path absolute, or the other way round. -/
theorem isAbsolute_parent (h : p.parent = some q) : q.isAbsolute = p.isAbsolute := by
  rw [Bool.eq_iff_iff, isAbsolute_iff, isAbsolute_iff]
  by_cases none : p.components = []
  · obtain ⟨dot, rfl⟩ := parent_eq_empty h none
    rw [dot]
    exact ⟨nofun, nofun⟩
  · rw [(parent_spec h none).1]

/-- A parent is never longer, so a path that fits has ancestors that fit. -/
theorem utf8ByteSize_parent (h : p.parent = some q) :
    q.text.utf8ByteSize ≤ p.text.utf8ByteSize := by
  rcases text_of_parent h with empty | root | ⟨rest, split⟩
  · rw [empty]
    exact Nat.zero_le _
  · have some : p.text.utf8ByteSize ≠ 0 := by
      intro none
      have shorter := length_parent h
      rw [String.utf8ByteSize_eq_zero_iff.1 none] at shorter
      exact Nat.not_lt_zero _ shorter
    rw [root]
    exact Nat.one_le_iff_ne_zero.2 some
  · have whole : p.text = q.text ++ String.ofList ('/' :: rest) := by
      rw [← String.toList_inj, split, String.toList_append, String.toList_ofList]
    rw [whole, String.utf8ByteSize_append]
    exact Nat.le_add_right _ _

/-- What each parent has in common with its path, all ancestors have. -/
theorem forall_ancestors {motive : Path → Prop} (first : motive p)
    (parent : ∀ a b, motive a → a.parent = some b → motive b) : ∀ d ∈ p.ancestors, motive d := by
  fun_induction ancestors p with
  | case1 p => simpa using first
  | case2 p q up shorter ih =>
    rw [List.forall_mem_cons]
    exact ⟨first, ih (parent p q first up)⟩

/-! ### Joins -/

/-- An absolute path replaces what it is joined to. -/
theorem join_of_isAbsolute (h : q.isAbsolute = true) : p.join q = q := by
  rw [join, if_pos h]

/-- Nothing stands in front of a path that is joined to the empty one. -/
theorem join_of_isEmpty (h : p.isEmpty = true) : p.join q = q := by
  obtain ⟨text⟩ := p
  obtain rfl : text = "" := by simpa [isEmpty] using h
  rw [join]
  split
  · rfl
  · obtain ⟨text⟩ := q
    simp [isEmpty]

/-- A relative path is written behind the slash that the other path ends in, or a new one. -/
theorem exists_join_eq (relative : q.isAbsolute = false) (some : p.isEmpty = false) :
    ∃ front, (p.join q).text.toList = front ++ '/' :: q.text.toList ∧
      (p.text.toList = front ∨ p.text.toList = front ++ ['/']) := by
  rw [join, if_neg (by simp [relative])]
  split
  next slash =>
    rw [some, Bool.false_or, beq_iff_eq] at slash
    obtain ⟨front, split⟩ := List.getLast?_eq_some_iff.1 slash
    exact ⟨front, by simp [split], .inr split⟩
  next => exact ⟨p.text.toList, by simp, .inl rfl⟩

/-- The segments of a relative path stand behind those of the other, but for an empty one at their
end. -/
theorem exists_segments_join (relative : q.isAbsolute = false) :
    ∃ front, (p.join q).segments = front ++ q.segments ∧ front.filter isBusy = p.components := by
  cases empty : p.isEmpty with
  | true =>
    refine ⟨[], by rw [join_of_isEmpty empty, List.nil_append], ?_⟩
    rw [(isEmpty_iff.1 empty).2, List.filter_nil]
  | false =>
    obtain ⟨front, whole, split⟩ := exists_join_eq relative empty
    refine ⟨(splitSlash front).map String.ofList, ?_, ?_⟩
    · rw [segments, whole, splitSlash_append, List.map_append, segments]
    · rcases split with same | slash
      · rw [components, segments, same]
      · rw [components, segments, slash, splitSlash_append, List.map_append, List.filter_append]
        exact (List.append_nil _).symm

/-- Joining puts the components of the second path behind those of the first. -/
theorem components_join (h : q.isAbsolute = false) :
    (p.join q).components = p.components ++ q.components := by
  obtain ⟨front, whole, busy⟩ := exists_segments_join h (p := p)
  rw [components, whole, List.filter_append, busy, ← components]

/-- The head of a path shows in its first two characters. -/
theorem splitHead_cons (c : Char) (rest : List Char) :
    (splitHead (c :: rest)).1 =
      if c = '/' then ['/'] else if c = '.' ∧ rest.head?.getD '/' = '/' then ['.'] else [] := by
  cases rest with
  | nil =>
    by_cases root : c = '/'
    · simp [root, splitHead]
    · by_cases dot : c = '.'
      · simp [dot, splitHead]
      · rw [splitHead.eq_4] <;> simp [root, dot]
  | cons d more =>
    by_cases root : c = '/'
    · simp [root, splitHead]
    · by_cases dots : c = '.' ∧ d = '/'
      · simp [dots, splitHead]
      · have none : splitHead (c :: d :: more) = ([], c :: d :: more) := by
          refine splitHead.eq_4 _ (by simp [root]) (by simp) fun rest split ↦ dots ?_
          obtain ⟨dot, slash⟩ := List.cons.inj split
          exact ⟨dot, (List.cons.inj slash).1⟩
        simp [none, root, dots]

/-- What stands behind a slash does not belong to the head, and so not the slash behind a path. -/
theorem splitHead_append_slash (front xs ys : List Char) :
    (splitHead (front ++ '/' :: xs)).1 = (splitHead (front ++ '/' :: ys)).1 := by
  cases front with
  | nil => rfl
  | cons c more =>
    rw [List.cons_append, List.cons_append, splitHead_cons, splitHead_cons, List.head?_append,
      List.head?_append]
    rfl

/-- The head is decided by the front of a path, if there is anything in front. -/
theorem splitHead_append_of_ne_nil {front : List Char} (h : front ≠ []) (xs : List Char) :
    (splitHead (front ++ '/' :: xs)).1 = (splitHead front).1 := by
  obtain ⟨c, more, rfl⟩ := List.exists_cons_of_ne_nil h
  rw [List.cons_append, splitHead_cons, splitHead_cons, List.head?_append]
  cases more <;> rfl

/-- The head of a join is that of the first path, unless this is empty. -/
theorem head_join (relative : q.isAbsolute = false) (some : p.isEmpty = false) :
    (p.join q).head = p.head := by
  obtain ⟨front, whole, same | slash⟩ := exists_join_eq relative some
  · have begins : front ≠ [] := by
      rintro rfl
      rw [isEmpty, Bool.eq_false_iff] at some
      exact some (by simpa using same)
    rw [head, whole, splitHead_append_of_ne_nil begins, head, same]
  · rw [head, whole, head, slash, splitHead_append_slash]

/-- A path without a head takes over that of the path in front of it. -/
theorem head_join_of_head (h : q.head = []) : (p.join q).head = p.head := by
  have relative : q.isAbsolute = false := by
    rw [Bool.eq_false_iff, ne_eq, isAbsolute_iff, h]
    exact nofun
  cases empty : p.isEmpty with
  | true => rw [join_of_isEmpty empty, h, (isEmpty_iff.1 empty).1]
  | false => exact head_join relative empty

/-- The parent of a path that ends in a name is the directory before it. -/
theorem writtenAlike_parent_join {name : Path} {s : String} (plain : name.head = [])
    (single : name.components = [s]) (h : (d.join name).parent = some p) : p.WrittenAlike d := by
  have relative : name.isAbsolute = false := by
    rw [Bool.eq_false_iff, ne_eq, isAbsolute_iff, plain]
    exact nofun
  have whole := components_join relative (p := d)
  rw [single] at whole
  obtain ⟨head, last, split⟩ := parent_spec h (by simp [whole])
  refine ⟨head.trans (head_join_of_head plain), ?_⟩
  exact (List.append_inj' (split.symm.trans whole) rfl).1

/-- The path `r` is `q` as seen from the directory `d`: `q` itself if that is absolute, and
otherwise what follows the components of `q` behind those of `d`. -/
def SeenFrom (d q r : Path) : Prop :=
  if q.isAbsolute then r = q
  else r.isAbsolute = d.isAbsolute ∧ r.components = d.components ++ q.components

/-- A joined path is absolute if the path in front is, unless the second one replaces it. -/
theorem isAbsolute_join (relative : q.isAbsolute = false) :
    (p.join q).isAbsolute = p.isAbsolute := by
  cases empty : p.isEmpty with
  | true =>
    have none : p.isAbsolute = false := by
      rw [Bool.eq_false_iff, ne_eq, isAbsolute_iff, (isEmpty_iff.1 empty).1]
      exact nofun
    rw [join_of_isEmpty empty, relative, none]
  | false => rw [Bool.eq_iff_iff, isAbsolute_iff, isAbsolute_iff, head_join relative empty]

/-- Joining a path to a directory shows it from there, however the directory is written. -/
theorem WrittenAlike.seenFrom_join (h : p.WrittenAlike d) (q : Path) : d.SeenFrom q (p.join q) := by
  rw [SeenFrom]
  split
  next absolute => exact join_of_isAbsolute absolute
  next relative =>
    rw [Bool.not_eq_true] at relative
    refine ⟨?_, by rw [components_join relative, h.components]⟩
    rw [isAbsolute_join relative, Bool.eq_iff_iff, isAbsolute_iff, isAbsolute_iff, h.head]

/-! ### Ancestors -/

/-- From the first path up to the last, the components become fewer by one at each step, so a search
that looks at components only goes through the beginnings of the first path's, the longest first. -/
theorem findSome?_ancestors {β : Type} (f : List String → Option β) (p : Path) :
    p.ancestors.findSome? (fun d ↦ f d.components) = p.components.inits.reverse.findSome? f := by
  have root : ([] : List String).inits.reverse.findSome? f = f [] := by
    simp [List.inits]
  fun_induction ancestors p with
  | case1 p last =>
    rw [List.findSome?_singleton, components_of_parent_eq_none last, root]
  | case2 p q parent shorter ih =>
    rw [List.findSome?_cons, ih]
    by_cases dot : p.components = []
    · -- the path is a dot, and the empty path is above it
      obtain ⟨-, rfl⟩ := parent_eq_empty parent dot
      have empty : (Path.mk "").components = [] := rfl
      rw [dot, empty, root]
      cases f [] <;> rfl
    · obtain ⟨-, name, split⟩ := parent_spec parent dot
      rw [split, List.inits_append, List.reverse_append, List.findSome?_append]
      have longest : (([name].inits.tail.map fun l ↦ q.components ++ l).reverse).findSome? f =
          f (q.components ++ [name]) := by
        simp [List.inits]
      rw [longest]
      cases f (q.components ++ [name]) <;> rfl

end FlatDecls.Path
