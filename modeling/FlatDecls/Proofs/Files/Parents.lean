import FlatDecls.Proofs.Files.Standing

/-!
# Parents of a path

The parent of a path is found by looking at its text only. It is empty, the root, or what stands
before some slash (`Path.text_of_parent`). So wherever a path leads, its parent leads to a
directory, and so do all the parents above it (`FileSystem.Reaches.isDirectory_of_mem_ancestors`).
-/

namespace FlatDecls

namespace Path

variable {p q : Path}

/-! ### Texts -/

theorem splitSlash_append (xs ys : List Char) :
    splitSlash (xs ++ '/' :: ys) = splitSlash xs ++ splitSlash ys := by
  induction xs with
  | nil => rfl
  | cons x xs ih =>
    rw [List.cons_append, splitSlash, splitSlash, ih]
    split
    · rfl
    · obtain ⟨piece, pieces, some⟩ := List.exists_cons_of_ne_nil (splitSlash_ne_nil xs)
      rw [some]
      rfl

theorem joinSlash_append {xs ys : List (List Char)} (hx : xs ≠ []) (hy : ys ≠ []) :
    joinSlash (xs ++ ys) = joinSlash xs ++ '/' :: joinSlash ys := by
  induction xs with
  | nil => exact absurd rfl hx
  | cons x xs ih =>
    cases xs with
    | nil =>
      rw [List.singleton_append, joinSlash, List.intercalate_cons_of_ne_nil hy]
      simp [joinSlash]
    | cons x' xs =>
      have first (zs : List (List Char)) : joinSlash (x :: x' :: zs) =
          x ++ ['/'] ++ joinSlash (x' :: zs) := List.intercalate_cons_cons
      rw [List.cons_append, List.cons_append, first, first, ← List.cons_append,
        ih (List.cons_ne_nil _ _), List.append_assoc (x ++ ['/'])]

/-- The pieces of a path without the last one that changes something. -/
theorem exists_splitSlash_eq {body : List Char} (h : dropIdle (splitSlash body) ≠ []) :
    ∃ more, more ≠ [] ∧
      splitSlash body = dropIdle (dropIdle (splitSlash body)).dropLast ++ more := by
  have last : (dropIdle (splitSlash body)).dropLast <+: dropIdle (splitSlash body) :=
    List.dropLast_prefix _
  obtain ⟨more, split⟩ :=
    ((isPrefix_dropIdle _).trans last).trans (isPrefix_dropIdle (splitSlash body))
  refine ⟨more, ?_, split.symm⟩
  rintro rfl
  have first := (isPrefix_dropIdle (dropIdle (splitSlash body)).dropLast).length_le
  have second := (isPrefix_dropIdle (splitSlash body)).length_le
  have some := List.length_pos_iff.2 h
  rw [List.length_dropLast] at first
  have all := congrArg List.length split
  rw [List.append_nil] at all
  omega

theorem splitHead_cases (cs : List Char) :
    (splitHead cs).1 = [] ∨ (splitHead cs).1 = ['/'] ∨
      (splitHead cs).1 = ['.'] ∧
        ((splitHead cs).2 = [] ∨ ∃ rest, (splitHead cs).2 = '/' :: rest) := by
  fun_cases splitHead cs with
  | case1 rest => exact .inr (.inl rfl)
  | case2 => exact .inr (.inr ⟨rfl, .inl rfl⟩)
  | case3 rest => exact .inr (.inr ⟨rfl, .inr ⟨rest, rfl⟩⟩)
  | case4 cs => exact .inl rfl

/-- A parent is empty, the root, or what stands before some slash. -/
theorem text_of_parent (h : p.parent = some q) :
    q.text = "" ∨ q.text = "/" ∨ ∃ rest, p.text.toList = q.text.toList ++ '/' :: rest := by
  have whole := splitHead_append p.text.toList
  simp only [parent] at h
  split at h
  next =>
    split at h
    · obtain rfl := Option.some.inj h
      exact .inl rfl
    · cases h
  next changing =>
    obtain rfl := Option.some.inj h
    obtain ⟨more, some, split⟩ := exists_splitSlash_eq changing
    have body := joinSlash_splitSlash (splitHead p.text.toList).2
    cases above : dropIdle (dropIdle (splitSlash (splitHead p.text.toList).2)).dropLast with
    | nil =>
      -- nothing is left but the head
      have onlyHead : joinSlash [] = [] := rfl
      rw [onlyHead, List.append_nil]
      rcases splitHead_cases p.text.toList with head | head | ⟨head, none | ⟨rest, body⟩⟩
      · exact .inl (congrArg String.ofList head)
      · exact .inr (.inl (congrArg String.ofList head))
      · rw [none] at changing
        exact absurd rfl changing
      · rw [body] at whole
        exact .inr (.inr ⟨rest, by rw [String.toList_ofList, whole]⟩)
    | cons piece pieces =>
      rw [above] at split
      rw [split, joinSlash_append (List.cons_ne_nil _ _) some] at body
      refine .inr (.inr ⟨joinSlash more, ?_⟩)
      rw [String.toList_ofList, List.append_assoc, body, whole]

theorem refused?_eq_none_iff : p.refused? = none ↔
    p.text.toList.any (·.toNat = 0) = false ∧ p.isEmpty = false ∧
      p.text.utf8ByteSize < pathLimit := by
  rw [refused?]
  split
  next nul => simp [nul]
  split
  next empty => simp [empty]
  split
  next long => simp [Nat.not_lt.2 long]
  next nul nonempty short =>
    exact iff_of_true rfl
      ⟨Bool.eq_false_iff.2 nul, Bool.eq_false_iff.2 nonempty, Nat.not_le.1 short⟩

/-- What a path begins with is accepted if the path is. -/
theorem not_refused_of_append {rest : List Char} (text : p.text.toList = q.text.toList ++ rest)
    (nonempty : q.isEmpty = false) (accepted : p.refused? = none) : q.refused? = none := by
  have ⟨noNul, _, short⟩ := refused?_eq_none_iff.1 accepted
  have whole : p.text = q.text ++ String.ofList rest := by
    rw [← String.toList_inj, text, String.toList_append, String.toList_ofList]
  rw [text, List.any_append, Bool.or_eq_false_iff] at noNul
  rw [whole, String.utf8ByteSize_append] at short
  exact refused?_eq_none_iff.2 ⟨noNul.1, nonempty, by omega⟩

/-- Behind a slash, the segments follow that would be those of the rest. -/
theorem segmentsFrom_of_append {rest : List Char} (cwd : Location)
    (text : p.text.toList = q.text.toList ++ '/' :: rest) (nonempty : q.isEmpty = false) :
    ∃ more, more ≠ [] ∧ p.segmentsFrom cwd = q.segmentsFrom cwd ++ more := by
  have absolute : p.isAbsolute = q.isAbsolute := by
    have begins : q.text.toList ≠ [] := by simpa [isEmpty] using nonempty
    obtain ⟨c, cs, first⟩ := List.exists_cons_of_ne_nil begins
    rw [isAbsolute, isAbsolute, text, first]
    rfl
  have segments : p.segments = q.segments ++ (splitSlash rest).map String.ofList := by
    rw [segments, text, splitSlash_append, List.map_append, segments]
  refine ⟨(splitSlash rest).map String.ofList, by simp [splitSlash_ne_nil], ?_⟩
  rw [segmentsFrom, segmentsFrom, absolute, segments]
  split
  · rfl
  · rw [List.append_assoc]

theorem ancestors_eq_cons (p : Path) : p.ancestors = p :: p.ancestors.tail := by
  rw [ancestors]
  split <;> rfl

theorem tail_ancestors (h : p.parent = some q) : p.ancestors.tail = q.ancestors := by
  rw [ancestors]
  split
  next none =>
    rw [none] at h
    cases h
  next q' parent =>
    obtain rfl : q' = q := Option.some.inj (parent.symm.trans h)
    rfl

theorem parent_of_isEmpty (h : q.isEmpty = true) : q.parent = none := by
  obtain ⟨text⟩ := q
  obtain rfl : text = "" := by simpa [isEmpty] using h
  rfl

end Path

namespace FileSystem

variable {fs : FileSystem} {cwd loc : Location} {p q : Path}

theorem reaches_root : fs.Reaches cwd ⟨"/"⟩ [] := ⟨fs.start, rfl, rfl⟩

/-- Wherever a path leads, its parent leads to a directory. -/
theorem Reaches.parent (h : fs.Reaches cwd p loc) (parent : p.parent = some q)
    (nonempty : q.isEmpty = false) :
    ∃ above, fs.Reaches cwd q above ∧ fs.standing? above = some .directory := by
  obtain ⟨text⟩ := q
  rcases Path.text_of_parent parent with empty | root | ⟨rest, split⟩
  · obtain rfl : text = "" := empty
    cases nonempty
  · obtain rfl : text = "/" := root
    exact ⟨[], reaches_root, rfl⟩
  · have ⟨accepted, leads⟩ := reaches_iff.1 h
    obtain ⟨more, some, segments⟩ := Path.segmentsFrom_of_append cwd split nonempty
    rw [segments] at leads
    obtain ⟨above, first, second⟩ := leads.exists_mid
    have accepted := Path.not_refused_of_append split nonempty accepted
    exact ⟨above, reaches_iff.2 ⟨accepted, first⟩, second.standing_of_ne_nil some⟩

/-- Wherever a path leads, all its parents lead to directories. -/
theorem Reaches.isDirectory_of_mem_ancestors (h : fs.Reaches cwd p loc)
    (mem : q ∈ p.ancestors.tail) (nonempty : q.isEmpty = false) :
    fs.isDirectory cwd q = true := by
  fun_induction Path.ancestors p generalizing loc with
  | case1 p none => cases mem
  | case2 p parent up shorter ih =>
    rw [List.tail_cons, Path.ancestors_eq_cons] at mem
    rcases List.mem_cons.1 mem with rfl | mem
    · obtain ⟨above, reaches, dir⟩ := h.parent up nonempty
      exact reaches.isDirectory dir
    · have some : parent.isEmpty = false := by
        rw [Bool.eq_false_iff]
        intro empty
        rw [Path.ancestors] at mem
        split at mem
        · cases mem
        next parent' more =>
          rw [Path.parent_of_isEmpty empty] at more
          cases more
      obtain ⟨above, reaches, -⟩ := h.parent up some
      exact ih reaches mem

end FileSystem

end FlatDecls
