import FlatDecls.Emission
import Mathlib.Data.List.SplitBy

/-!
# Documentation in a listing

A documentation may hold any text, also one that looks like declarations. In a listing it fills
lines of its own, behind three slashes, and no other line begins with these: whoever removes the
lines with three slashes is left with the listing of the same units without documentation, and
what has been removed are the lines of the documentations, each before what it documents
(`Register.emit_listing_remarks`).

To say so, a register is read as a list of entries, one for each line that its listing has without
documentation (`Register.entries`).
-/

namespace FlatDecls

/-! ### Cutting a text -/

namespace Text

/-- The pieces of a text that is cut behind each line feed. -/
def pieces (s : String) : List String :=
  (s.toList.splitBy fun c _ ↦ c != '\n').map String.ofList

/-- The lines of a text hold no line feed. -/
theorem lineFeed_not_mem_linesOf {cs line : List Char} (h : line ∈ linesOf cs) : '\n' ∉ line := by
  fun_induction linesOf cs generalizing line with
  | case1 => cases h
  | case2 rest ih | case3 rest ih =>
    rcases List.mem_cons.1 h with rfl | h
    · exact List.not_mem_nil
    · exact ih h
  | case4 c rest ordinary _ ih =>
    have other : '\n' ≠ c := fun same ↦ ordinary same.symm
    cases lines : linesOf rest with
    | nil =>
      rw [lines, extendFirst, List.mem_singleton] at h
      simpa [h] using other
    | cons first others =>
      rw [lines] at h ih
      rcases List.mem_cons.1 h with rfl | h
      · simpa [other] using ih List.mem_cons_self
      · exact ih (List.mem_cons_of_mem _ h)

/-- A line of a text does not contain the line feed that ends it. -/
theorem lineFeed_not_mem_lines {s line : String} (h : line ∈ lines s) : '\n' ∉ line.toList := by
  obtain ⟨cs, hcs, rfl⟩ := List.mem_map.1 h
  rw [String.toList_ofList]
  exact lineFeed_not_mem_linesOf hcs

/-- Lines that are put together are cut as they were. -/
theorem splitBy_lines {ls : List (List Char)} (h : ∀ l ∈ ls, '\n' ∉ l) :
    (ls.map (· ++ ['\n'])).flatten.splitBy (fun c _ ↦ c != '\n') = ls.map (· ++ ['\n']) := by
  refine List.splitBy_flatten (by simp) ?_ ?_
  · rw [List.forall_mem_map]
    intro l hl
    have ordinary : ∀ c ∈ l, (c != '\n') = true := by
      intro c hc
      exact bne_iff_ne.2 fun same ↦ h l hl (same ▸ hc)
    rw [List.isChain_append]
    refine ⟨?_, by simp, fun c hc _ _ ↦ ordinary c (List.mem_of_getLast? hc)⟩
    exact List.Pairwise.isChain (List.pairwise_of_forall_mem_list fun c hc _ _ ↦ ordinary c hc)
  · refine List.Pairwise.isChain (List.pairwise_map.2 (List.pairwise_of_forall fun l m ↦ ?_))
    exact ⟨by simp, by simp, by simp⟩

/-- Lines that are joined by line feeds come apart again, unless one of them contains a line feed
itself. -/
theorem pieces_ofLines {ls : List String} (h : ∀ l ∈ ls, '\n' ∉ l.toList) :
    pieces (Listing.ofLines ls) = ls.map (· ++ "\n") := by
  have text : (Listing.ofLines ls).toList = ((ls.map String.toList).map (· ++ ['\n'])).flatten := by
    simp [Listing.ofLines, String.toList_join, List.flatMap_def, Function.comp_def]
  rw [pieces, text, splitBy_lines (List.forall_mem_map.2 h), List.map_map, List.map_map]
  refine List.map_congr_left fun l _ ↦ ?_
  simp

end Text

namespace Listing

/-! ### Remarks -/

/-- Are the first characters of a line that are no blanks three slashes? -/
def isRemark (line : String) : Bool := "///".toList.isPrefixOf (line.toList.dropWhile (· == ' '))

/-- Every level of depth takes two blanks. -/
theorem toList_indentation (depth : Nat) :
    (indentation depth).toList = List.replicate (2 * depth) ' ' := by
  have blanks (n : Nat) : ("".pushn ' ' n).toList = List.replicate n ' ' := by
    induction n with
    | zero => rfl
    | succ n ih =>
      have step : "".pushn ' ' (n + 1) = ("".pushn ' ' n).push ' ' := rfl
      rw [step, String.toList_push, ih, List.replicate_succ']
  exact blanks _

/-- Whether a line is a remark shows behind its indentation. -/
theorem isRemark_indentation (depth : Nat) (line : String) :
    isRemark (indentation depth ++ line) = isRemark line := by
  have blank : ∀ c ∈ List.replicate (2 * depth) ' ', (c == ' ') = true := by
    intro c hc
    rw [List.eq_of_mem_replicate hc]
    rfl
  rw [isRemark, String.toList_append, toList_indentation, List.dropWhile_append_of_pos blank,
    isRemark]

/-- Whatever a documentation's line says, the line that is written for it is a remark. -/
theorem isRemark_remark (depth : Nat) (line : String) :
    isRemark (indentation depth ++ "/// " ++ line) = true := by
  rw [String.append_assoc, isRemark_indentation, isRemark, String.toList_append]
  rfl

theorem lineFeed_not_mem_indentation (depth : Nat) : '\n' ∉ (indentation depth).toList := by
  rw [toList_indentation, List.mem_replicate]
  rintro ⟨-, same⟩
  exact absurd same (by decide)

theorem lineFeed_not_mem_toString (i : Int) : '\n' ∉ (toString i).toList := by
  have digits (n : Nat) : '\n' ∉ n.repr.toList := by
    rw [Nat.toList_repr]
    intro h
    exact absurd (Nat.isDigit_of_mem_toDigits (by omega) (by omega) h) (by decide)
  rw [Int.toString_eq_repr, Int.repr_eq_if]
  split
  · exact digits _
  · simpa using digits _

/-! ### Entries -/

/-- What fills a line, with the documentation that stands before it. -/
structure Entry where
  depth : Nat
  line : String
  documentation : Option String := none

namespace Entry

/-- The lines of the documentation, each behind three slashes. -/
def remarks (e : Entry) : List String :=
  match e.documentation with
  | some text => (Text.lines text).map fun line ↦ indentation e.depth ++ "/// " ++ line ++ "\n"
  | none => []

/-- The line of the entry itself. -/
def own (e : Entry) : String := indentation e.depth ++ e.line ++ "\n"

/-- The entry without its documentation. -/
def undocumented (e : Entry) : Entry := { e with documentation := none }

/-- The line of the entry is one line and no remark. -/
def Plain (e : Entry) : Prop := '\n' ∉ e.line.toList ∧ isRemark (e.line ++ "\n") = false

/-- All lines of the entry, without their endings. -/
def lines (e : Entry) : List String :=
  documentationLines e.depth e.documentation ++ [indentation e.depth ++ e.line]

/-- The lines of an entry, each with its line feed, are its remarks and its own line. -/
theorem map_lines (e : Entry) : e.lines.map (· ++ "\n") = e.remarks ++ [e.own] := by
  rw [lines, List.map_append, remarks, documentationLines.eq_def]
  congr
  cases e.documentation with
  | none => rfl
  | some text => exact List.map_map

/-- Nothing but remarks is written in front of an entry's own line. -/
theorem isRemark_of_mem_remarks {e : Entry} {line : String} (h : line ∈ e.remarks) :
    isRemark line = true := by
  rw [remarks.eq_def] at h
  split at h
  · obtain ⟨l, -, rfl⟩ := List.mem_map.1 h
    rw [String.append_assoc]
    exact isRemark_remark _ _
  · cases h

theorem Plain.isRemark_own {e : Entry} (h : e.Plain) : isRemark e.own = false := by
  rw [own, String.append_assoc, isRemark_indentation]
  exact h.2

/-- The lines of a plain entry are single lines: its documentation was split into lines, and its own
line has no line feed by definition. -/
theorem Plain.lineFeed_not_mem {e : Entry} (h : e.Plain) :
    ∀ line ∈ e.lines, '\n' ∉ line.toList := by
  intro line hl
  have blank := lineFeed_not_mem_indentation e.depth
  rw [lines, documentationLines.eq_def] at hl
  rcases List.mem_append.1 hl with hl | hl
  · split at hl
    · obtain ⟨l, inText, rfl⟩ := List.mem_map.1 hl
      simpa [blank] using Text.lineFeed_not_mem_lines inText
    · cases hl
  · obtain rfl := List.mem_singleton.1 hl
    simpa [blank] using h.1

end Entry

/-- A text of entries is cut into their lines. -/
theorem pieces_entries {es : List Entry} (h : ∀ e ∈ es, e.Plain) :
    Text.pieces (ofLines (es.flatMap Entry.lines)) = es.flatMap fun e ↦ e.remarks ++ [e.own] := by
  rw [Text.pieces_ofLines, List.map_flatMap]
  · exact List.flatMap_congr fun e _ ↦ e.map_lines
  · intro l hl
    obtain ⟨e, he, hl⟩ := List.mem_flatMap.1 hl
    exact (h e he).lineFeed_not_mem l hl

/-- Of plain entries in a row, the remarks are exactly what is written for their documentation. -/
theorem filter_isRemark_entries {es : List Entry} (h : ∀ e ∈ es, e.Plain) :
    (es.flatMap fun e ↦ e.remarks ++ [e.own]).filter isRemark = es.flatMap Entry.remarks := by
  rw [List.filter_flatMap]
  refine List.flatMap_congr fun e he ↦ ?_
  have kept : e.remarks.filter isRemark = e.remarks :=
    List.filter_eq_self.2 fun _ ↦ Entry.isRemark_of_mem_remarks
  rw [List.filter_append, kept]
  simp [(h e he).isRemark_own]

/-- Without the remarks the entries' own lines are left. -/
theorem filter_not_isRemark_entries {es : List Entry} (h : ∀ e ∈ es, e.Plain) :
    (es.flatMap fun e ↦ e.remarks ++ [e.own]).filter (!isRemark ·) = es.map Entry.own := by
  rw [List.filter_flatMap, ← List.flatMap_pure_eq_map]
  refine List.flatMap_congr fun e he ↦ ?_
  have gone : e.remarks.filter (!isRemark ·) = [] := by
    rw [List.filter_eq_nil_iff]
    intro l hl
    simp [Entry.isRemark_of_mem_remarks hl]
  rw [List.filter_append, gone]
  simp [(h e he).isRemark_own]

theorem ofLines_append (ls ms : List String) : ofLines (ls ++ ms) = ofLines ls ++ ofLines ms := by
  rw [ofLines, List.map_append, String.join_append]
  rfl

end Listing

open Listing

/-! ### The entries of a register -/

/-- The entry of a field. -/
def FlatField.entry (f : FlatField) : Entry := ⟨1, f.name ++ ": " ++ f.typeName, f.documentation⟩

/-- The entry of a constant. -/
def FlatMember.entry (m : FlatMember) : Entry :=
  ⟨1, m.name ++ " = " ++ toString m.value.toInt, m.documentation⟩

/-- The entries of a unit: its head, its fields or members and the closing brace. -/
def FlatUnit.entries : FlatUnit → List Entry
  | struct s =>
    ⟨0, "struct " ++ s.name ++ " \x7b", s.documentation⟩ :: s.fields.map FlatField.entry
      ++ [⟨0, "\x7d", none⟩]
  | enum e =>
    ⟨0, "enum " ++ e.name ++ " \x7b", e.documentation⟩ :: e.members.map FlatMember.entry
      ++ [⟨0, "\x7d", none⟩]

/-- The entries of all units, with an empty line between two of them. -/
def Register.entries (r : Register) : List Entry :=
  [⟨0, "", none⟩].intercalate (r.units.map FlatUnit.entries)

theorem FlatField.lines_eq (f : FlatField) : f.lines 1 = f.entry.lines := by
  rw [lines, Entry.lines, entry, String.append_assoc, String.append_assoc, String.append_assoc]

theorem FlatMember.lines_eq (m : FlatMember) : m.lines 1 = m.entry.lines := by
  rw [lines, Entry.lines, entry, String.append_assoc, String.append_assoc, String.append_assoc]

/-- A block consists of its head, what is in it and the brace. -/
theorem Listing.block_eq (text : Option String) (head : String) (es : List Entry) :
    block 0 text head (es.flatMap Entry.lines) =
      List.flatMap Entry.lines (⟨0, head ++ " \x7b", text⟩ :: es ++ [⟨0, "\x7d", none⟩]) := by
  simp [block, Entry.lines, documentationLines, String.append_assoc]

/-- The lines of a unit are those of its entries: its head, its fields or members, and its closing
brace. -/
theorem FlatUnit.lines_eq (u : FlatUnit) : u.lines 0 = u.entries.flatMap Entry.lines := by
  cases u with
  | struct s =>
    rw [lines, FlatStructure.lines, entries, ← block_eq, List.flatMap_map]
    exact congrArg _ (List.flatMap_congr fun f _ ↦ f.lines_eq)
  | enum e =>
    rw [lines, FlatEnumeration.lines, entries, ← block_eq, List.flatMap_map]
    exact congrArg _ (List.flatMap_congr fun m _ ↦ m.lines_eq)

/-- Between two units there is an empty line. -/
theorem Register.entries_cons_cons (u v : FlatUnit) (us : List FlatUnit) :
    (⟨u :: v :: us⟩ : Register).entries =
      u.entries ++ ⟨0, "", none⟩ :: (⟨v :: us⟩ : Register).entries := by
  simp [entries]

/-- The listing of a register consists of the lines of its entries. -/
theorem Register.emit_listing (r : Register) :
    r.emit .listing = ofLines (r.entries.flatMap Entry.lines) := by
  obtain ⟨units⟩ := r
  induction units with
  | nil => rfl
  | cons u us ih =>
    have unit : u.listing 0 = ofLines (u.entries.flatMap Entry.lines) := by
      rw [FlatUnit.listing, u.lines_eq]
    cases us with
    | nil => simpa [emit, listing, entries] using unit
    | cons v us =>
      have first : (⟨u :: v :: us⟩ : Register).emit .listing =
          u.listing 0 ++ "\n" ++ (⟨v :: us⟩ : Register).emit .listing :=
        String.intercalate_cons_of_ne_nil (List.cons_ne_nil _ _)
      rw [first, ih, unit, entries_cons_cons, List.flatMap_append, List.flatMap_cons,
        ofLines_append, ofLines_append, String.append_assoc]
      rfl

/-! ### Removing the documentation -/

/-- The unit without any documentation. -/
def FlatUnit.undocumented : FlatUnit → FlatUnit
  | struct s => struct
    { s with documentation := none, fields := s.fields.map ({ · with documentation := none }) }
  | enum e => enum
    { e with documentation := none, members := e.members.map ({ · with documentation := none }) }

/-- The register without any documentation. -/
def Register.undocumented (r : Register) : Register := ⟨r.units.map FlatUnit.undocumented⟩

/-- Taking the documentation away keeps the entries, each without its remarks. -/
theorem FlatUnit.entries_undocumented (u : FlatUnit) :
    u.undocumented.entries = u.entries.map Entry.undocumented := by
  cases u with
  | struct s =>
    simp [undocumented, entries, Entry.undocumented, FlatField.entry, Function.comp_def]
  | enum e =>
    simp [undocumented, entries, Entry.undocumented, FlatMember.entry, Function.comp_def]

/-- The same holds of all the units of a register, with the empty lines between them. -/
theorem Register.entries_undocumented (r : Register) :
    r.undocumented.entries = r.entries.map Entry.undocumented := by
  obtain ⟨units⟩ := r
  induction units with
  | nil => rfl
  | cons u us ih =>
    cases us with
    | nil => simpa [undocumented, entries] using u.entries_undocumented
    | cons v us =>
      have first : (⟨u :: v :: us⟩ : Register).undocumented.entries =
          u.undocumented.entries ++ ⟨0, "", none⟩ :: (⟨v :: us⟩ : Register).undocumented.entries :=
        entries_cons_cons ..
      rw [first, ih, u.entries_undocumented, entries_cons_cons, List.map_append, List.map_cons]
      rfl

/-- The listing of the undocumented register consists of the entries' own lines. -/
theorem Register.emit_undocumented (r : Register) :
    r.undocumented.emit .listing = String.join (r.entries.map Entry.own) := by
  rw [emit_listing, entries_undocumented, ofLines, List.map_flatMap, List.flatMap_map,
    ← List.flatMap_pure_eq_map]
  refine congrArg _ (List.flatMap_congr fun e _ ↦ ?_)
  rw [Entry.map_lines]
  rfl

/-! ### Names -/

/-- May the character stand in a name? A character outside ASCII may, as some compilers have it. -/
def isNameChar (c : Char) : Bool := c.isAlphanum || c == '_' || decide (0x7f < c.toNat)

/-- Is the text an identifier: letters, digits and underscores that do not begin with a digit? -/
def isIdentifier (s : String) : Bool :=
  match s.toList with
  | [] => false
  | c :: cs => !c.isDigit && (c :: cs).all isNameChar

/-- The name of a field is an identifier and its type stands on one line. -/
def FlatField.Legible (f : FlatField) : Prop :=
  isIdentifier f.name = true ∧ '\n' ∉ f.typeName.toList

/-- The name of a constant is an identifier. -/
def FlatMember.Legible (m : FlatMember) : Prop := isIdentifier m.name = true

/-- All names in a unit are identifiers, and the types stand on one line. -/
def FlatUnit.Legible : FlatUnit → Prop
  | struct s => isIdentifier s.name = true ∧ ∀ f ∈ s.fields, f.Legible
  | enum e => isIdentifier e.name = true ∧ ∀ m ∈ e.members, m.Legible

/-- All names in a register are identifiers, and the types stand on one line. -/
def Register.Legible (r : Register) : Prop := ∀ u ∈ r.units, u.Legible

/-- An identifier is not empty, and it consists of letters, digits and underscores. -/
theorem exists_nameChar_of_isIdentifier {s : String} (h : isIdentifier s = true) :
    ∃ c cs, s.toList = c :: cs ∧ ∀ d ∈ c :: cs, isNameChar d = true := by
  rw [isIdentifier] at h
  split at h
  next => cases h
  next c cs text =>
    rw [Bool.and_eq_true, List.all_eq_true] at h
    exact ⟨c, cs, text, h.2⟩

theorem lineFeed_not_mem_of_isIdentifier {s : String} (h : isIdentifier s = true) :
    '\n' ∉ s.toList := by
  obtain ⟨c, cs, text, names⟩ := exists_nameChar_of_isIdentifier h
  rw [text]
  exact fun hn ↦ absurd (names _ hn) (by decide)

/-- A line that begins with neither a blank nor a slash is no remark. -/
theorem isRemark_eq_false {line : String} {c : Char} {cs : List Char} (text : line.toList = c :: cs)
    (blank : c ≠ ' ') (slash : '/' ≠ c) : isRemark line = false := by
  have slashes : "///".toList = ['/', '/', '/'] := rfl
  have kept : (c :: cs).dropWhile (· == ' ') = c :: cs :=
    List.dropWhile_cons_of_neg (by simpa using blank)
  rw [isRemark, text, kept, slashes, List.isPrefixOf_cons_cons, beq_eq_false_iff_ne.2 slash,
    Bool.false_and]

/-- A line that begins with a name is no remark. -/
theorem isRemark_of_isIdentifier {s : String} (h : isIdentifier s = true) (rest : String) :
    isRemark (s ++ rest) = false := by
  obtain ⟨c, cs, text, names⟩ := exists_nameChar_of_isIdentifier h
  have name := names c List.mem_cons_self
  have begins : (s ++ rest).toList = c :: (cs ++ rest.toList) := by simp [text]
  refine isRemark_eq_false begins ?_ ?_
  · rintro rfl
    exact absurd name (by decide)
  · rintro rfl
    exact absurd name (by decide)

/-- A field with a legible name and type has an own line that no one takes for a remark. -/
theorem FlatField.Legible.plain_entry {f : FlatField} (h : f.Legible) : f.entry.Plain := by
  have name := lineFeed_not_mem_of_isIdentifier h.1
  refine ⟨by simpa [entry, name] using h.2, ?_⟩
  rw [entry, String.append_assoc, String.append_assoc]
  exact isRemark_of_isIdentifier h.1 _

theorem FlatMember.Legible.plain_entry {m : FlatMember} (h : m.Legible) : m.entry.Plain := by
  have name := lineFeed_not_mem_of_isIdentifier h
  refine ⟨by simpa [entry, name] using lineFeed_not_mem_toString _, ?_⟩
  rw [entry, String.append_assoc, String.append_assoc]
  exact isRemark_of_isIdentifier h _

theorem Listing.plain_brace : (⟨0, "\x7d", none⟩ : Entry).Plain := ⟨by decide, rfl⟩

/-- What a legible unit writes is plain throughout, its head and its brace included. -/
theorem FlatUnit.Legible.plain_of_mem_entries {u : FlatUnit} (h : u.Legible) :
    ∀ e ∈ u.entries, e.Plain := by
  -- a head begins with the kind of the unit
  cases u with
  | struct s =>
    have name := lineFeed_not_mem_of_isIdentifier h.1
    have head : (⟨0, "struct " ++ s.name ++ " \x7b", s.documentation⟩ : Entry).Plain :=
      ⟨by simpa using name, isRemark_eq_false (c := 's') (by simp; rfl) (by decide) (by decide)⟩
    rw [entries, List.forall_mem_append, List.forall_mem_cons, List.forall_mem_map]
    exact ⟨⟨head, fun f hf ↦ (h.2 f hf).plain_entry⟩, List.forall_mem_singleton.2 plain_brace⟩
  | enum e =>
    have name := lineFeed_not_mem_of_isIdentifier h.1
    have head : (⟨0, "enum " ++ e.name ++ " \x7b", e.documentation⟩ : Entry).Plain :=
      ⟨by simpa using name, isRemark_eq_false (c := 'e') (by simp; rfl) (by decide) (by decide)⟩
    rw [entries, List.forall_mem_append, List.forall_mem_cons, List.forall_mem_map]
    exact ⟨⟨head, fun m hm ↦ (h.2 m hm).plain_entry⟩, List.forall_mem_singleton.2 plain_brace⟩

theorem Register.Legible.plain_of_mem_entries {r : Register} (h : r.Legible) :
    ∀ e ∈ r.entries, e.Plain := by
  obtain ⟨units⟩ := r
  induction units with
  | nil => exact fun e he ↦ nomatch he
  | cons u us ih =>
    have ⟨unit, others⟩ := List.forall_mem_cons.1 h
    cases us with
    | nil => simpa [entries] using unit.plain_of_mem_entries
    | cons v us =>
      have blank : (⟨0, "", none⟩ : Entry).Plain := ⟨by decide, rfl⟩
      rw [entries_cons_cons, List.forall_mem_append, List.forall_mem_cons]
      exact ⟨unit.plain_of_mem_entries, blank, ih others⟩

/-! ### The listing -/

theorem FlatUnit.entries_ne_nil (u : FlatUnit) : u.entries ≠ [] := by
  cases u <;> exact List.cons_ne_nil _ _

/-- Only the empty register has no entries. -/
theorem Register.entries_eq_nil_iff {r : Register} : r.entries = [] ↔ r.units = [] := by
  obtain ⟨units⟩ := r
  cases units with
  | nil => exact iff_of_true rfl rfl
  | cons u us =>
    cases us with
    | nil => simp [entries, u.entries_ne_nil]
    | cons v us => simp [entries_cons_cons]

/-- A text of entries ends with a line feed. -/
theorem Listing.exists_ofLines_entries {es : List Entry} (h : es ≠ []) :
    ∃ body, ofLines (es.flatMap Entry.lines) = body ++ "\n" := by
  obtain ⟨before, last, rfl⟩ := (List.eq_nil_or_concat es).resolve_left h
  have ending : (before ++ [last]).flatMap Entry.lines = (before.flatMap Entry.lines ++
      documentationLines last.depth last.documentation) ++
        [indentation last.depth ++ last.line] := by
    simp [Entry.lines]
  have line : ofLines [indentation last.depth ++ last.line] =
      indentation last.depth ++ last.line ++ "\n" := by
    simp [ofLines]
  rw [List.concat_eq_append, ending, ofLines_append, line, ← String.append_assoc]
  exact ⟨_, rfl⟩

/-- The listing of a register, cut behind each line feed, has for every entry the lines of its
documentation behind three slashes and then the line of the entry. The former are the lines that
begin with three slashes, and without them the text is the listing of the register without any
documentation. The text is empty if there are no units, and ends with a line feed otherwise. -/
theorem Register.emit_listing_remarks (r : Register) (legible : r.Legible) :
    let lines := Text.pieces (r.emit .listing)
    lines = (r.entries.flatMap fun e ↦ e.remarks ++ [e.own]) ∧
      lines.filter isRemark = r.entries.flatMap Entry.remarks ∧
      String.join (lines.filter (!isRemark ·)) = r.undocumented.emit .listing ∧
      (r.emit .listing = "" ↔ r.units = []) ∧
      (r.units ≠ [] → ∃ body, r.emit .listing = body ++ "\n") := by
  have plain := legible.plain_of_mem_entries
  have cut : Text.pieces (r.emit .listing) = r.entries.flatMap fun e ↦ e.remarks ++ [e.own] := by
    rw [r.emit_listing, pieces_entries plain]
  have ending (h : r.units ≠ []) : ∃ body, r.emit .listing = body ++ "\n" := by
    rw [r.emit_listing]
    exact exists_ofLines_entries (mt entries_eq_nil_iff.1 h)
  refine ⟨cut, ?_, ?_, ⟨?_, ?_⟩, ending⟩
  · rw [cut, filter_isRemark_entries plain]
  · rw [cut, filter_not_isRemark_entries plain, r.emit_undocumented]
  · intro empty
    by_contra h
    obtain ⟨body, text⟩ := ending h
    simpa using congrArg String.toList (empty.symm.trans text)
  · intro none
    rw [r.emit_listing, entries_eq_nil_iff.2 none]
    rfl

/-- A structure whose documentations look like declarations and end their lines in several ways. -/
def Register.disguised : Register :=
  ⟨[.struct ⟨"Pair", [⟨"first", "int", some "\x7d\r\nsecond: int\n\n"⟩, ⟨"last", "int", none⟩],
    some "struct Other \x7b\r"⟩]⟩

/-- A documentation may look like other lines of the listing. It is found all the same, and nothing
else goes with it. -/
theorem Register.remarks_of_disguised :
    disguised.Legible ∧
    (Text.pieces (disguised.emit .listing)).filter isRemark =
      ["/// struct Other \x7b\r\n", "  /// \x7d\n", "  /// second: int\n", "  /// \n"] ∧
    String.join ((Text.pieces (disguised.emit .listing)).filter (!isRemark ·)) =
      "struct Pair \x7b\n  first: int\n  last: int\n\x7d\n" := by
  have legible : disguised.Legible := by
    simp [Legible, disguised, FlatUnit.Legible, FlatField.Legible, isIdentifier, isNameChar]
  have all := emit_listing_remarks disguised legible
  exact ⟨legible, all.2.1.trans (by decide), all.2.2.1.trans (by decide)⟩

end FlatDecls
