import FlatDecls.Toml.Document

/-!
# Documents line by line

What a reader takes from the front of a text that ends with a line end does not depend on what comes
behind that line end (`ByLines`): quotes in a row, the runs of unquoted values and the blanks in a
date all stop there at the latest. So the statements on complete lines (`Lines`) stay what they are
whatever document the lines are put in front of (`Lines.statements?_append`).
-/

namespace FlatDecls.Toml

variable {cs rest : List Char}

/-- The text ends with a line end. -/
def EndsLine (cs : List Char) : Prop := cs.getLast? = some '\n'

/-- What is read of a text that ends with a line end is the same if more text follows, and the line
end is left. -/
def ByLines (r : List Char → Option (α × List Char)) : Prop :=
  ∀ ⦃cs a rest⦄, EndsLine cs → r cs = some (a, rest) →
    EndsLine rest ∧ ∀ more, r (cs ++ more) = some (a, rest ++ more)

/-- What is skipped at the front of a text that ends with a line end is all of it, or does not
depend on the text that follows. -/
def SkipsByLines (skip : List Char → List Char) : Prop :=
  ∀ ⦃cs⦄, EndsLine cs → skip cs = [] ∨
    EndsLine (skip cs) ∧ ∀ more, skip (cs ++ more) = skip cs ++ more

/-- If something is left after skipping, then it ends with the same line end, and text behind that
line end only comes after it. -/
theorem SkipsByLines.cons {skip : List Char → List Char} {c : Char} (h : SkipsByLines skip)
    (ends : EndsLine cs) (front : skip cs = c :: rest) :
    EndsLine (c :: rest) ∧ ∀ more, skip (cs ++ more) = c :: (rest ++ more) := by
  rcases h ends with none | ⟨ends, append⟩
  · cases front.symm.trans none
  · rw [front] at ends append
    exact ⟨ends, append⟩

namespace EndsLine

theorem ne_nil (h : EndsLine cs) : cs ≠ [] := by
  rintro rfl
  cases h

theorem exists_cons (h : EndsLine cs) : ∃ c rest, cs = c :: rest :=
  List.exists_cons_of_ne_nil h.ne_nil

/-- Without its first character a text still ends with a line end, unless that was the line end
itself. -/
theorem tail {c : Char} (h : EndsLine (c :: rest)) (other : c ≠ '\n') : EndsLine rest := by
  cases rest with
  | nil => exact absurd (Option.some.inj h) other
  | cons d ds => rwa [EndsLine, List.getLast?_cons_cons] at h

/-- Behind the first character there is nothing left, or the rest ends with the line end. -/
theorem tail_or {c : Char} (h : EndsLine (c :: rest)) : rest = [] ∨ EndsLine rest := by
  cases rest with
  | nil => exact .inl rfl
  | cons d ds => exact .inr (by rwa [EndsLine, List.getLast?_cons_cons] at h)

/-- A run of characters that are no line ends stops in front of the last one. -/
theorem dropWhile {p : Char → Bool} (stop : p '\n' = false) (h : EndsLine cs) :
    EndsLine (cs.dropWhile p) := by
  induction cs with
  | nil => cases h
  | cons c rest ih =>
    cases hc : p c with
    | false => rwa [List.dropWhile_cons_of_neg (by simp [hc])]
    | true =>
      rw [List.dropWhile_cons_of_pos hc]
      refine ih (h.tail ?_)
      rintro rfl
      simp [stop] at hc

/-- Passing over a run of characters does not reach beyond the last line end. -/
theorem dropWhile_append {p : Char → Bool} (stop : p '\n' = false) (h : EndsLine cs)
    (more : List Char) : (cs ++ more).dropWhile p = cs.dropWhile p ++ more := by
  rw [List.dropWhile_append, if_neg]
  simp [(h.dropWhile stop).ne_nil]

/-- Nothing behind the last line end belongs to a run at the front. -/
theorem takeWhile_append {p : Char → Bool} (stop : p '\n' = false) (h : EndsLine cs)
    (more : List Char) : (cs ++ more).takeWhile p = cs.takeWhile p := by
  have kept := h.dropWhile_append stop more
  have whole := List.takeWhile_append_dropWhile (p := p) (l := cs ++ more)
  rw [kept, ← List.append_assoc] at whole
  have front := List.append_cancel_right whole
  exact List.append_cancel_right (front.trans List.takeWhile_append_dropWhile.symm)

end EndsLine

/-! ### Blanks, comments and line ends -/

namespace EndsLine

theorem skipBlanks (h : EndsLine cs) : EndsLine (skipBlanks cs) := h.dropWhile rfl

theorem skipBlanks_append (h : EndsLine cs) (more : List Char) :
    Toml.skipBlanks (cs ++ more) = Toml.skipBlanks cs ++ more := h.dropWhile_append rfl more

theorem skipComment (h : EndsLine cs) : EndsLine (skipComment cs) := by
  unfold Toml.skipComment
  split
  · exact (h.tail (by decide)).dropWhile rfl
  · exact h

theorem skipComment_append (h : EndsLine cs) (more : List Char) :
    Toml.skipComment (cs ++ more) = Toml.skipComment cs ++ more := by
  obtain ⟨c, rest, rfl⟩ := h.exists_cons
  by_cases mark : c = '#'
  · subst mark
    exact (h.tail (by decide)).dropWhile_append rfl more
  · simp [Toml.skipComment, mark]

/-- No line end begins behind the last one. -/
theorem newline?_append (h : EndsLine cs) (more : List Char) :
    newline? (cs ++ more) = (newline? cs).map (· ++ more) := by
  obtain ⟨c, rest, rfl⟩ := h.exists_cons
  by_cases feed : c = '\n'
  · subst feed
    rfl
  by_cases mark : c = '\r'
  · subst mark
    obtain ⟨d, rest, rfl⟩ := (h.tail (by decide)).exists_cons
    by_cases feed : d = '\n' <;> simp [newline?, feed]
  · simp [newline?, feed, mark]

/-- A line end at the front is the last one, or another one follows. -/
theorem newline? (h : EndsLine cs) (read : newline? cs = some rest) :
    rest = [] ∨ EndsLine rest := by
  unfold Toml.newline? at read
  split at read
  · obtain rfl := Option.some.inj read
    exact h.tail_or
  · obtain rfl := Option.some.inj read
    exact (h.tail (by decide)).tail_or
  · cases read

/-- The end of a line is found without a look at what follows the last line end. -/
theorem endLine? (h : EndsLine cs) (read : endLine? cs = some rest) :
    (rest = [] ∨ EndsLine rest) ∧ ∀ more, Toml.endLine? (cs ++ more) = some (rest ++ more) := by
  have ends := h.skipBlanks.skipComment
  obtain ⟨c, left, front⟩ := ends.exists_cons
  rw [front] at ends
  have read : Toml.newline? (c :: left) = some rest := by
    rw [Toml.endLine?, front] at read
    exact read
  refine ⟨ends.newline? read, fun more ↦ ?_⟩
  rw [Toml.endLine?, h.skipBlanks_append, h.skipBlanks.skipComment_append, front]
  show Toml.newline? (c :: left ++ more) = _
  rw [ends.newline?_append, read]
  rfl

/-- What comes first in a text does so also if more text follows. -/
theorem append_ne_cons (h : EndsLine cs) {d : Char} (other : ∀ rest, cs ≠ d :: rest)
    (more rest : List Char) : cs ++ more ≠ d :: rest := by
  obtain ⟨c, left, rfl⟩ := h.exists_cons
  intro same
  exact other left (congrArg (· :: left) (List.cons.inj same).1)

/-- What is skipped in front of a statement, or in a value, ends inside of the text or is all of
it. -/
theorem skipSpaceFrom (inComment : Bool) (h : EndsLine cs) :
    (skipSpaceFrom inComment cs = [] ∧
        ∀ more, Toml.skipSpaceFrom inComment (cs ++ more) = skipSpace more) ∨
      EndsLine (Toml.skipSpaceFrom inComment cs) ∧
        ∀ more, Toml.skipSpaceFrom inComment (cs ++ more) =
          Toml.skipSpaceFrom inComment cs ++ more := by
  have behind {c : Char} {rest : List Char} (ends : EndsLine rest)
      (other : ∀ left, c = '\r' → rest = '\n' :: left → False) (more left : List Char)
      (mark : c = '\r') : rest ++ more ≠ '\n' :: left :=
    ends.append_ne_cons (fun left ↦ other left mark) more left
  fun_induction Toml.skipSpaceFrom inComment cs with
  | case1 inComment rest ih =>
    simp only [List.cons_append, Toml.skipSpaceFrom]
    rcases h.tail_or with rfl | ends
    · exact .inl ⟨rfl, fun _ ↦ rfl⟩
    · exact ih ends
  | case2 inComment rest ih =>
    simp only [List.cons_append, Toml.skipSpaceFrom]
    rcases (h.tail (by decide)).tail_or with rfl | ends
    · exact .inl ⟨rfl, fun _ ↦ rfl⟩
    · exact ih ends
  | case3 c rest feed other plain ih =>
    have ends := h.tail feed
    simp only [List.cons_append, Toml.skipSpaceFrom.eq_3 _ _ _ feed (behind ends other _), plain,
      if_true]
    exact ih ends
  | case4 c rest feed other plain =>
    have ends := h.tail feed
    simp [Toml.skipSpaceFrom.eq_3 _ _ _ feed (behind ends other _), plain, h]
  | case5 inComment c rest feed other outside blank ih =>
    have ends := h.tail feed
    simp only [List.cons_append, Toml.skipSpaceFrom.eq_3 _ _ _ feed (behind ends other _), outside,
      blank, if_true]
    exact ih ends
  | case6 inComment rest outside feed other notBlank ih =>
    have ends := h.tail feed
    simp only [List.cons_append, Toml.skipSpaceFrom.eq_3 _ _ _ feed (behind ends other _), outside,
      notBlank]
    exact ih ends
  | case7 inComment c rest feed other outside notBlank notMark =>
    have ends := h.tail feed
    simp [Toml.skipSpaceFrom.eq_3 _ _ _ feed (behind ends other _), h, outside, notBlank, notMark]
  | case8 => cases h

end EndsLine

/-- Blanks do not include the line end. -/
theorem skipsByLines_skipBlanks : SkipsByLines skipBlanks :=
  fun _ h ↦ .inr ⟨h.skipBlanks, h.skipBlanks_append⟩

/-- Blank lines and comments may be all that there is; otherwise skipping them stops in front of a
character that lies before the last line end. -/
theorem skipsByLines_skipSpace : SkipsByLines skipSpace :=
  fun _ h ↦ (h.skipSpaceFrom false).imp And.left id

/-! ### Texts -/

/-- What is read may be changed afterwards. -/
theorem byLines_map {r : List Char → Option (σ × List Char)} {f : σ → τ} {t : τ}
    (h : ∀ ⦃s rest⦄, r cs = some (s, rest) →
      EndsLine rest ∧ ∀ more, r (cs ++ more) = some (s, rest ++ more))
    (read : (do let (s, left) ← r cs; return (f s, left)) = some (t, rest)) :
    EndsLine rest ∧ ∀ more,
      (do let (s, left) ← r (cs ++ more); return (f s, left)) = some (t, rest ++ more) := by
  obtain ⟨⟨s, left⟩, first, same⟩ := Option.bind_eq_some_iff.1 read
  obtain ⟨rfl, rfl⟩ := Prod.mk.inj (Option.some.inj same)
  obtain ⟨ends, append⟩ := h first
  refine ⟨ends, fun more ↦ ?_⟩
  rw [append]
  rfl

/-- A reader may change what it returns. -/
theorem ByLines.map {r : List Char → Option (σ × List Char)} (h : ByLines r) (f : σ → τ) :
    ByLines fun cs ↦ (r cs).map fun (s, rest) ↦ (f s, rest) := by
  intro cs t rest ends read
  obtain ⟨⟨s, left⟩, first, same⟩ := Option.map_eq_some_iff.1 read
  obtain ⟨rfl, rfl⟩ := Prod.mk.inj same
  obtain ⟨last, append⟩ := h ends first
  refine ⟨last, fun more ↦ ?_⟩
  show (r (cs ++ more)).map _ = _
  rw [append]
  rfl

/-- A character that may stand unescaped ends no line. -/
theorem ne_of_isPlain {c : Char} (plain : isPlain c = true) : c ≠ '\n' := by
  rintro rfl
  cases plain

/-- A line end is no hexadecimal digit, so an escape of fixed width cannot reach across it. -/
theorem byLines_hexNumber? (width n : Nat) : ByLines (hexNumber? width n) := by
  intro cs m rest h read
  fun_induction hexNumber? width n cs with
  | case1 n cs =>
    obtain ⟨rfl, rfl⟩ := Prod.mk.inj (Option.some.inj read)
    exact ⟨h, fun _ ↦ by rw [hexNumber?]⟩
  | case2 n width c left ih =>
    obtain ⟨d, digit, read⟩ := Option.bind_eq_some_iff.1 read
    have other : c ≠ '\n' := by
      rintro rfl
      cases digit
    obtain ⟨ends, append⟩ := ih d (h.tail other) read
    refine ⟨ends, fun more ↦ ?_⟩
    rw [List.cons_append, hexNumber?, digit]
    exact append more
  | case3 => cases read

theorem byLines_numbered? (width : Nat) : ByLines (numbered? width) := by
  intro cs c rest h read
  obtain ⟨⟨n, left⟩, digits, read⟩ := Option.bind_eq_some_iff.1 read
  obtain ⟨d, character, same⟩ := Option.bind_eq_some_iff.1 read
  obtain ⟨rfl, rfl⟩ := Prod.mk.inj (Option.some.inj same)
  obtain ⟨ends, append⟩ := byLines_hexNumber? width 0 h digits
  refine ⟨ends, fun more ↦ ?_⟩
  rw [numbered?, append]
  show (scalar? n).bind _ = _
  rw [character]
  rfl

/-- Both the short escapes and the numbered ones lie within one line. -/
theorem byLines_escape? : ByLines escape? := by
  intro cs c rest h read
  unfold escape? at read
  split at read
  case h_9 | h_10 | h_11 => exact byLines_numbered? _ (h.tail (by decide)) read
  case h_12 => cases read
  all_goals
    obtain ⟨rfl, rfl⟩ := Prod.mk.inj (Option.some.inj read)
    exact ⟨h.tail (by decide), fun _ ↦ rfl⟩

/-- A text in single quotes ends before its line does. -/
theorem byLines_literal? : ByLines literal? := by
  intro cs s rest h read
  fun_induction literal? cs generalizing s rest with
  | case1 => cases read
  | case2 left =>
    obtain ⟨rfl, rfl⟩ := Prod.mk.inj (Option.some.inj read)
    exact ⟨h.tail (by decide), fun _ ↦ rfl⟩
  | case3 c left mark plain ih =>
    obtain ⟨ends, append⟩ := byLines_map (fun _ _ ↦ ih (h.tail (ne_of_isPlain plain))) read
    refine ⟨ends, fun more ↦ ?_⟩
    rw [List.cons_append, literal?.eq_3 _ _ mark, if_pos plain, append]
  | case4 => cases read

/-- An escape adds its character to the text, and reading goes on behind it. -/
theorem basic?_escape {c : Char} (escaped : escape? cs = some (c, rest)) :
    basic? ('\\' :: cs) = (do let (s, left) ← basic? rest; return (c :: s, left)) := by
  rw [basic?]
  split
  · next d left found =>
    obtain ⟨rfl, rfl⟩ := Prod.mk.inj (Option.some.inj (escaped.symm.trans found))
    rfl
  · next none => cases escaped.symm.trans none

/-- A text in double quotes ends before its line does: the induction follows the reader, character
by character and escape by escape. -/
theorem byLines_basic? : ByLines basic? := by
  intro cs s rest h read
  fun_induction basic? cs generalizing s rest with
  | case1 => cases read
  | case2 left =>
    obtain ⟨rfl, rfl⟩ := Prod.mk.inj (Option.some.inj read)
    exact ⟨h.tail (by decide), fun more ↦ by rw [List.cons_append, basic?]⟩
  | case3 tail c left escaped shorter ih =>
    obtain ⟨ends, behind⟩ := byLines_escape? (h.tail (by decide)) escaped
    obtain ⟨ends, append⟩ := byLines_map (fun _ _ ↦ ih ends) read
    refine ⟨ends, fun more ↦ ?_⟩
    rw [List.cons_append, basic?_escape (behind more), append]
  | case4 => cases read
  | case5 c tail mark backslash plain ih =>
    obtain ⟨ends, append⟩ := byLines_map (fun _ _ ↦ ih (h.tail (ne_of_isPlain plain))) read
    refine ⟨ends, fun more ↦ ?_⟩
    rw [List.cons_append, basic?.eq_4 _ _ mark backslash, if_pos plain, append]
  | case6 => cases read

/-! ### Texts on several lines -/

/-- A backslash at a line end passes over blank lines. If it does not pass over everything, then it
stops within the text at hand. -/
theorem EndsLine.skipLines (h : EndsLine cs) (goesOn : skipLines cs ≠ []) :
    EndsLine (skipLines cs) ∧ ∀ more, Toml.skipLines (cs ++ more) = Toml.skipLines cs ++ more := by
  fun_induction Toml.skipLines cs with
  | case1 rest ih | case2 rest ih =>
    simp only [List.cons_append, Toml.skipLines]
    exact ih (h.tail (by decide)) goesOn
  | case3 rest ih =>
    simp only [List.cons_append, Toml.skipLines]
    rcases h.tail_or with rfl | ends
    · exact absurd rfl goesOn
    · exact ih ends goesOn
  | case4 rest ih =>
    simp only [List.cons_append, Toml.skipLines]
    rcases (h.tail (by decide)).tail_or with rfl | ends
    · exact absurd rfl goesOn
    · exact ih ends goesOn
  | case5 cs blank tab feed mark =>
    refine ⟨h, fun more ↦ ?_⟩
    rw [Toml.skipLines]
    · exact h.append_ne_cons blank more
    · exact h.append_ne_cons tab more
    · exact h.append_ne_cons feed more
    · obtain ⟨c, left, rfl⟩ := h.exists_cons
      intro rest same
      rw [List.cons_append] at same
      obtain ⟨rfl, behind⟩ := List.cons.inj same
      refine (h.tail (by decide)).append_ne_cons (fun rest same ↦ ?_) more rest behind
      exact mark rest (congrArg _ same)

/-- Whether lines are joined is decided within the text, unless joining uses up all of it. -/
theorem EndsLine.joinLines? (h : EndsLine cs) (more : List Char) :
    (joinLines? cs = none → Toml.joinLines? (cs ++ more) = none) ∧
      ∀ rest, Toml.joinLines? cs = some rest → rest ≠ [] →
        EndsLine rest ∧ Toml.joinLines? (cs ++ more) = some (rest ++ more) := by
  have next : Toml.joinLines? (cs ++ more) =
      ((Toml.newline? (Toml.skipBlanks cs)).map (· ++ more)).map Toml.skipLines := by
    rw [Toml.joinLines?, h.skipBlanks_append, h.skipBlanks.newline?_append]
  constructor
  · intro none
    rw [next, Option.map_eq_none_iff.1 none]
    rfl
  · intro rest joined goesOn
    obtain ⟨left, found, rfl⟩ := Option.map_eq_some_iff.1 joined
    rcases h.skipBlanks.newline? found with rfl | ends
    · exact absurd rfl goesOn
    · obtain ⟨ends, append⟩ := ends.skipLines goesOn
      rw [next, found]
      exact ⟨ends, congrArg some (append more)⟩

/-- Marks that stand in a row in front of a line end are all there. -/
theorem EndsLine.closeRun (mark : Char) (other : mark ≠ '\n') (h : EndsLine cs) :
    EndsLine (closeRun mark (runLength mark cs) cs).2 ∧ ∀ more,
      runLength mark (cs ++ more) = runLength mark cs ∧
        Toml.closeRun mark (runLength mark cs) (cs ++ more) =
          ((Toml.closeRun mark (runLength mark cs) cs).1,
            (Toml.closeRun mark (runLength mark cs) cs).2 ++ more) := by
  have stop : ('\n' == mark) = false := beq_false_of_ne other.symm
  have short : min (runLength mark cs) 5 ≤ (cs.takeWhile (· == mark)).length := Nat.min_le_left _ _
  have inside : min (runLength mark cs) 5 ≤ cs.length :=
    Nat.le_trans short (List.takeWhile_prefix _).length_le
  refine ⟨?_, fun more ↦ ⟨?_, ?_⟩⟩
  · show EndsLine (cs.drop _)
    have parts := congrArg (List.drop (min (runLength mark cs) 5))
      (List.takeWhile_append_dropWhile (p := (· == mark)) (l := cs))
    rw [List.drop_append_of_le_length short] at parts
    rw [← parts, EndsLine, List.getLast?_append, h.dropWhile (p := (· == mark)) stop]
    rfl
  · show ((cs ++ more).takeWhile (· == mark)).length = _
    rw [h.takeWhile_append (p := (· == mark)) stop]
    rfl
  · show (_, (cs ++ more).drop _) = _
    rw [List.drop_append_of_le_length inside]
    rfl

/-- A text in three single quotes may go over many lines, but it is closed within the text at hand
or not read at all. -/
theorem byLines_multiLiteral? : ByLines multiLiteral? := by
  intro cs s rest h read
  fun_induction multiLiteral? cs generalizing s rest with
  | case1 => cases read
  | case2 left closes =>
    rw [if_pos closes] at read
    obtain ⟨ends, run⟩ := h.closeRun '\'' (by decide)
    rw [Option.some.inj read] at ends run
    refine ⟨ends, fun more ↦ ?_⟩
    obtain ⟨same, closed⟩ := run more
    rw [List.cons_append] at same closed
    rw [List.cons_append, multiLiteral?, same, if_pos closes, closed]
  | case3 left goesOn ih =>
    rw [if_neg goesOn] at read
    obtain ⟨ends, append⟩ := byLines_map (fun _ _ ↦ ih (h.tail (by decide))) read
    refine ⟨ends, fun more ↦ ?_⟩
    obtain ⟨same, -⟩ := (h.closeRun '\'' (by decide)).2 more
    rw [List.cons_append] at same
    rw [List.cons_append, multiLiteral?, same, if_neg goesOn, append]
  | case4 left ih =>
    rcases h.tail_or with rfl | ends
    · cases read
    obtain ⟨ends, append⟩ := byLines_map (fun _ _ ↦ ih ends) read
    refine ⟨ends, fun more ↦ ?_⟩
    rw [List.cons_append, multiLiteral?, append]
  | case5 left ih =>
    rcases (h.tail (by decide)).tail_or with rfl | ends
    · cases read
    obtain ⟨ends, append⟩ := byLines_map (f := fun s ↦ '\r' :: '\n' :: s) (fun _ _ ↦ ih ends) read
    refine ⟨ends, fun more ↦ ?_⟩
    rw [List.cons_append, List.cons_append, multiLiteral?]
    exact append more
  | case6 c left mark feed ret plain ih =>
    have ends := h.tail (ne_of_isPlain plain)
    obtain ⟨last, append⟩ := byLines_map (fun _ _ ↦ ih ends) read
    refine ⟨last, fun more ↦ ?_⟩
    rw [List.cons_append, multiLiteral?.eq_5 _ _ mark feed
      (fun rest same ↦ ends.append_ne_cons (fun rest ↦ ret rest same) more rest), if_pos plain,
      append]
  | case7 => cases read

/-- A backslash at the end of a line leaves no trace in the text. -/
theorem multiBasic?_join (joined : joinLines? cs = some rest) :
    multiBasic? ('\\' :: cs) = multiBasic? rest := by
  rw [multiBasic?]
  split
  · next left found => rw [Option.some.inj (joined.symm.trans found)]
  · next none => cases joined.symm.trans none

/-- Where no lines are joined, a backslash begins an escape. -/
theorem multiBasic?_escape {c : Char} (whole : joinLines? cs = none)
    (escaped : escape? cs = some (c, rest)) :
    multiBasic? ('\\' :: cs) = (do let (s, left) ← multiBasic? rest; return (c :: s, left)) := by
  rw [multiBasic?]
  split
  · next left found => cases whole.symm.trans found
  · split
    · next d left found =>
      obtain ⟨rfl, rfl⟩ := Prod.mk.inj (Option.some.inj (escaped.symm.trans found))
      rfl
    · next none => cases escaped.symm.trans none

/-- A text in three double quotes is closed within the text at hand. Joined lines are the one place
where a look ahead might go beyond it, and then no quotes are left to close the text. -/
theorem byLines_multiBasic? : ByLines multiBasic? := by
  intro cs s rest h read
  fun_induction multiBasic? cs generalizing s rest with
  | case1 => cases read
  | case2 left closes =>
    rw [if_pos closes] at read
    obtain ⟨ends, run⟩ := h.closeRun '"' (by decide)
    rw [Option.some.inj read] at ends run
    refine ⟨ends, fun more ↦ ?_⟩
    obtain ⟨same, closed⟩ := run more
    rw [List.cons_append] at same closed
    rw [List.cons_append, multiBasic?, same, if_pos closes, closed]
  | case3 left goesOn ih =>
    rw [if_neg goesOn] at read
    obtain ⟨ends, append⟩ := byLines_map (fun _ _ ↦ ih (h.tail (by decide))) read
    refine ⟨ends, fun more ↦ ?_⟩
    obtain ⟨same, -⟩ := (h.closeRun '"' (by decide)).2 more
    rw [List.cons_append] at same
    rw [List.cons_append, multiBasic?, same, if_neg goesOn, append]
  | case4 tail left joined shorter ih =>
    have goesOn : left ≠ [] := by
      rintro rfl
      simp [multiBasic?] at read
    have behind (more : List Char) :=
      ((h.tail (by decide)).joinLines? more).2 left joined goesOn
    obtain ⟨last, append⟩ := ih (behind []).1 read
    refine ⟨last, fun more ↦ ?_⟩
    rw [List.cons_append, multiBasic?_join (behind more).2, append]
  | case5 tail whole c left escaped shorter ih =>
    have front := h.tail (by decide)
    obtain ⟨ends, behind⟩ := byLines_escape? front escaped
    obtain ⟨last, append⟩ := byLines_map (fun _ _ ↦ ih ends) read
    refine ⟨last, fun more ↦ ?_⟩
    rw [List.cons_append, multiBasic?_escape ((front.joinLines? more).1 whole) (behind more),
      append]
  | case6 => cases read
  | case7 left ih =>
    rcases h.tail_or with rfl | ends
    · simp [multiBasic?] at read
    obtain ⟨ends, append⟩ := byLines_map (fun _ _ ↦ ih ends) read
    refine ⟨ends, fun more ↦ ?_⟩
    rw [List.cons_append, multiBasic?, append]
  | case8 left ih =>
    rcases (h.tail (by decide)).tail_or with rfl | ends
    · simp [multiBasic?] at read
    obtain ⟨ends, append⟩ := byLines_map (f := fun s ↦ '\r' :: '\n' :: s) (fun _ _ ↦ ih ends) read
    refine ⟨ends, fun more ↦ ?_⟩
    rw [List.cons_append, List.cons_append, multiBasic?]
    exact append more
  | case9 c left mark backslash feed ret plain ih =>
    have ends := h.tail feed
    obtain ⟨last, append⟩ := byLines_map (fun _ _ ↦ ih ends) read
    refine ⟨last, fun more ↦ ?_⟩
    rw [List.cons_append, multiBasic?.eq_6 _ _ mark backslash feed
      (fun rest same ↦ ends.append_ne_cons (fun rest ↦ ret rest same) more rest), if_pos plain,
      append]
  | case10 => cases read

/-- What is read behind the opening marks of a text on several lines, whose first line may be
empty. -/
theorem byLines_skipFirstLineEnd {r : List Char → Option (α × List Char)} (h : ByLines r)
    (none : r [] = none) : ByLines fun cs ↦ r (skipFirstLineEnd cs) := by
  intro cs a rest ends read
  have next (more : List Char) : skipFirstLineEnd (cs ++ more) =
      ((newline? cs).map (· ++ more)).getD (cs ++ more) := by
    rw [skipFirstLineEnd, ends.newline?_append]
  cases found : newline? cs with
  | none =>
    simp only [skipFirstLineEnd, found, Option.getD_none] at read
    obtain ⟨last, append⟩ := h ends read
    refine ⟨last, fun more ↦ ?_⟩
    simp only [next, found, Option.map_none, Option.getD_none]
    exact append more
  | some left =>
    simp only [skipFirstLineEnd, found, Option.getD_some] at read
    rcases ends.newline? found with rfl | ends
    · cases none.symm.trans read
    obtain ⟨last, append⟩ := h ends read
    refine ⟨last, fun more ↦ ?_⟩
    simp only [next, found, Option.map_some, Option.getD_some]
    exact append more

/-- Whether three marks open a text is seen before its line ends. -/
theorem EndsLine.append_ne_marks (h : EndsLine cs) {d : Char} (mark : d ≠ '\n')
    (other : ∀ rest, cs ≠ d :: d :: rest) (more rest : List Char) :
    cs ++ more ≠ d :: d :: rest := by
  obtain ⟨c, left, rfl⟩ := h.exists_cons
  intro same
  obtain ⟨rfl, behind⟩ := List.cons.inj same
  have second (rest : List Char) : left ≠ c :: rest := fun same ↦ other rest (congrArg _ same)
  exact (h.tail mark).append_ne_cons second more rest behind

/-- Each of the four ways to write a text keeps to the lines at hand. -/
theorem byLines_contents? : ByLines contents? := by
  intro cs s rest h read
  unfold contents? at read
  split at read
  · next left =>
    have ends := ((h.tail (by decide)).tail (by decide)).tail (by decide)
    exact byLines_skipFirstLineEnd byLines_multiBasic? (by simp [multiBasic?]) ends read
  · next left =>
    have ends := ((h.tail (by decide)).tail (by decide)).tail (by decide)
    exact byLines_skipFirstLineEnd byLines_multiLiteral? rfl ends read
  · next left other =>
    have ends := h.tail (by decide)
    obtain ⟨last, append⟩ := byLines_basic? ends read
    refine ⟨last, fun more ↦ ?_⟩
    rw [List.cons_append, contents?.eq_3, append]
    exact ends.append_ne_marks (by decide) other more
  · next left other =>
    have ends := h.tail (by decide)
    obtain ⟨last, append⟩ := byLines_literal? ends read
    refine ⟨last, fun more ↦ ?_⟩
    rw [List.cons_append, contents?.eq_4, append]
    exact ends.append_ne_marks (by decide) other more
  · cases read

theorem byLines_string? : ByLines string? := byLines_contents?.map String.ofList

/-! ### Keys -/

/-- A part of a key is a bare word or a text on one line. -/
theorem byLines_keyPart? : ByLines keyPart? := by
  intro cs s rest h read
  unfold keyPart? at read
  split at read
  · exact byLines_basic?.map String.ofList (h.tail (by decide)) read
  · exact byLines_literal?.map String.ofList (h.tail (by decide)) read
  · next quote apostrophe =>
    have next (more : List Char) := keyPart?.eq_3 (cs ++ more)
      (h.append_ne_cons quote more) (h.append_ne_cons apostrophe more)
    simp only [h.takeWhile_append (p := isBareKeyChar) rfl,
      h.dropWhile_append (p := isBareKeyChar) rfl] at next
    split at read
    · cases read
    · next word none =>
      obtain ⟨rfl, rfl⟩ := Prod.mk.inj (Option.some.inj read)
      refine ⟨h.dropWhile rfl, fun more ↦ ?_⟩
      rw [next]
      split
      · next empty => exact absurd empty none
      · rfl

/-- A dot behind a part makes it a table's name, and the key goes on. -/
theorem keyFrom?_dot {path : List String} {part : String} {left : List Char}
    (first : keyPart? cs = some (part, rest)) (dot : skipBlanks rest = '.' :: left) :
    keyFrom? path cs = keyFrom? (part :: path) (skipBlanks left) := by
  rw [keyFrom?]
  split
  · next none => cases first.symm.trans none
  · next other rest' found =>
    obtain ⟨rfl, rfl⟩ := Prod.mk.inj (Option.some.inj (first.symm.trans found))
    split
    · next left' same => rw [(List.cons.inj (dot.symm.trans same)).2]
    · next none => exact absurd dot (none left)

/-- Without a dot behind it a part is the last one. -/
theorem keyFrom?_last {path : List String} {part : String}
    (first : keyPart? cs = some (part, rest)) (last : ∀ left, skipBlanks rest ≠ '.' :: left) :
    keyFrom? path cs = some (⟨path.reverse, part⟩, skipBlanks rest) := by
  rw [keyFrom?]
  split
  · next none => cases first.symm.trans none
  · next other rest' found =>
    obtain ⟨rfl, rfl⟩ := Prod.mk.inj (Option.some.inj (first.symm.trans found))
    split
    · next left same => exact absurd same (last left)
    · rfl

/-- However many parts a key has, a line end is not one of them. -/
theorem byLines_keyFrom? (path : List String) : ByLines (keyFrom? path) := by
  intro cs key rest h read
  fun_induction keyFrom? path cs with
  | case1 => cases read
  | case2 path cs part mid first left dot shorter ih =>
    obtain ⟨ends, append⟩ := byLines_keyPart? h first
    have dotted := ends.skipBlanks
    rw [dot] at dotted
    have ends' := (dotted.tail (by decide)).skipBlanks
    obtain ⟨last, append'⟩ := ih ends' read
    refine ⟨last, fun more ↦ ?_⟩
    have dot' : skipBlanks (mid ++ more) = '.' :: (left ++ more) := by
      rw [ends.skipBlanks_append, dot, List.cons_append]
    rw [keyFrom?_dot (append more) dot', (dotted.tail (by decide)).skipBlanks_append, append']
  | case3 path cs part mid first dot =>
    obtain ⟨ends, append⟩ := byLines_keyPart? h first
    obtain ⟨rfl, rfl⟩ := Prod.mk.inj (Option.some.inj read)
    refine ⟨ends.skipBlanks, fun more ↦ ?_⟩
    have last (left : List Char) : skipBlanks (mid ++ more) ≠ '.' :: left := by
      rw [ends.skipBlanks_append]
      exact ends.skipBlanks.append_ne_cons dot more left
    rw [keyFrom?_last (append more) last, ends.skipBlanks_append]

theorem byLines_key? : ByLines key? := by
  intro cs key rest h read
  obtain ⟨first, short⟩ := Option.filter_eq_some_iff.1 read
  obtain ⟨last, append⟩ := byLines_keyFrom? [] h first
  exact ⟨last, fun more ↦ Option.filter_eq_some_iff.2 ⟨append more, short⟩⟩

/-! ### Values -/

/-- Between a date and a time of day stands a blank and no line end. -/
theorem EndsLine.takeRun (h : EndsLine cs) :
    EndsLine (takeRun cs).2 ∧ ∀ more,
      Toml.takeRun (cs ++ more) = ((Toml.takeRun cs).1, (Toml.takeRun cs).2 ++ more) := by
  have ends := h.dropWhile (p := isScalarChar) rfl
  have front := h.takeWhile_append (p := isScalarChar) rfl
  have back := h.dropWhile_append (p := isScalarChar) rfl
  unfold Toml.takeRun
  simp only [front, back]
  generalize cs.takeWhile isScalarChar = run at *
  generalize cs.dropWhile isScalarChar = left at *
  obtain ⟨c, left, rfl⟩ := ends.exists_cons
  by_cases blank : c = ' '
  · subst blank
    have ends := ends.tail (by decide)
    obtain ⟨d, left, rfl⟩ := ends.exists_cons
    simp only [List.cons_append]
    split
    · refine ⟨ends.dropWhile rfl, fun more ↦ ?_⟩
      rw [← List.cons_append, ends.takeWhile_append (p := isScalarChar) rfl,
        ends.dropWhile_append (p := isScalarChar) rfl]
    · exact ⟨‹_›, fun _ ↦ rfl⟩
  · simp [blank, ends]

/-- A run of unquoted characters ends at a line end, and so does the date and time that may have one
blank in it. -/
theorem byLines_scalar : ByLines scalar := by
  intro cs v rest h read
  obtain ⟨ends, append⟩ := h.takeRun
  have run : scalar cs = (judge (takeRun cs).1).map fun v ↦ (v, (takeRun cs).2) := rfl
  obtain ⟨w, judged, same⟩ := Option.map_eq_some_iff.1 (run.symm.trans read)
  obtain ⟨rfl, rfl⟩ := Prod.mk.inj same
  refine ⟨ends, fun more ↦ ?_⟩
  rw [scalar, append]
  show (judge (takeRun cs).1).map _ = _
  rw [judged]
  rfl

section Parts

variable {close c : Char} {part : Reader α} {a : α} {left tail : List Char}

/-- The closing bracket ends the list of parts. -/
theorem parts?_closed (front : skipSpace cs = close :: tail) :
    parts? close part cs = some ([], tail) := by
  rw [parts?]
  split
  · next none => cases front.symm.trans none
  · next c rest same =>
    obtain ⟨rfl, rfl⟩ := List.cons.inj (front.symm.trans same)
    rw [if_pos rfl]

/-- A comma separates a part from those that follow. -/
theorem parts?_next (front : skipSpace cs = c :: tail) (opened : c ≠ close)
    (first : part.read (c :: tail) = some (a, left)) (back : skipSpace left = ',' :: rest) :
    parts? close part cs =
      (do let (as, tail) ← parts? close part rest; return (a :: as, tail)) := by
  rw [parts?]
  split
  · next none => cases front.symm.trans none
  · next d rest' same =>
    obtain ⟨rfl, rfl⟩ := List.cons.inj (front.symm.trans same)
    rw [if_neg opened]
    split
    · next none => cases first.symm.trans none
    · next b left' found =>
      obtain ⟨rfl, rfl⟩ := Prod.mk.inj (Option.some.inj (first.symm.trans found))
      split
      · next more same =>
        obtain ⟨-, rfl⟩ := List.cons.inj (back.symm.trans same)
        rfl
      · next d more other same => exact absurd (List.cons.inj (same.symm.trans back)).1 other
      · next none => cases back.symm.trans none

/-- The last part may stand right before the closing bracket. -/
theorem parts?_last (front : skipSpace cs = c :: tail) (opened : c ≠ close)
    (first : part.read (c :: tail) = some (a, left)) (other : close ≠ ',')
    (back : skipSpace left = close :: rest) : parts? close part cs = some ([a], rest) := by
  rw [parts?]
  split
  · next none => cases front.symm.trans none
  · next d rest' same =>
    obtain ⟨rfl, rfl⟩ := List.cons.inj (front.symm.trans same)
    rw [if_neg opened]
    split
    · next none => cases first.symm.trans none
    · next b left' found =>
      obtain ⟨rfl, rfl⟩ := Prod.mk.inj (Option.some.inj (first.symm.trans found))
      split
      · next more same => exact absurd (List.cons.inj (back.symm.trans same)).1 other
      · next d more _ same =>
        obtain ⟨rfl, rfl⟩ := List.cons.inj (back.symm.trans same)
        rw [if_pos rfl]
      · next none => cases back.symm.trans none

/-- What stands between the marks of an array or inline table. -/
theorem byLines_parts? (h : ByLines part.read) (mark : close ≠ '\n') :
    ByLines (parts? close part) := by
  have goesOn {cs tail : List Char} {c : Char} (ends : EndsLine cs)
      (front : skipSpace cs = c :: tail) :
      EndsLine (c :: tail) ∧ ∀ more, skipSpace (cs ++ more) = c :: (tail ++ more) :=
    skipsByLines_skipSpace.cons ends front
  intro cs as rest ends read
  fun_induction parts? close part cs generalizing as rest with
  | case1 => cases read
  | case2 cs tail front =>
    obtain ⟨rfl, rfl⟩ := Prod.mk.inj (Option.some.inj read)
    obtain ⟨ends, append⟩ := goesOn ends front
    exact ⟨ends.tail mark, fun more ↦ parts?_closed (append more)⟩
  | case3 => cases read
  | case4 cs c tail front opened a left first more back shorter ih =>
    obtain ⟨ends, before⟩ := goesOn ends front
    obtain ⟨ends, behind⟩ := h ends first
    obtain ⟨ends, comma⟩ := goesOn ends back
    obtain ⟨last, append⟩ := byLines_map (fun _ _ ↦ ih (ends.tail (by decide))) read
    refine ⟨last, fun more ↦ ?_⟩
    rw [parts?_next (before more) opened (behind more) (comma more), append]
  | case5 cs c tail front opened a left first more other back =>
    obtain ⟨rfl, rfl⟩ := Prod.mk.inj (Option.some.inj read)
    obtain ⟨ends, before⟩ := goesOn ends front
    obtain ⟨ends, behind⟩ := h ends first
    obtain ⟨ends, closed⟩ := goesOn ends back
    exact ⟨ends.tail mark,
      fun more ↦ parts?_last (before more) opened (behind more) other (closed more)⟩
  | case6 => cases read
  | case7 => cases read

end Parts

theorem scalar_nil : scalar [] = none := by decide +kernel

theorem Reader.read_value_nil (depth : Nat) : (Reader.value depth).read [] = none := by
  cases depth with
  | zero => exact scalar_nil
  | succ depth => exact scalar_nil

/-- An assignment keeps to the lines at hand if its value and the gaps around its parts do. -/
theorem byLines_assignment? {skip : List Char → List Char} {value : Reader Value}
    (hs : SkipsByLines skip) (hv : ByLines value.read) (nil : value.read [] = none) :
    ByLines (assignment? skip value) := by
  intro cs a rest h read
  obtain ⟨⟨key, left⟩, first, read⟩ := Option.bind_eq_some_iff.1 read
  obtain ⟨ends, behind⟩ := byLines_key? h first
  dsimp only at read
  split at read
  · next tail sign =>
    obtain ⟨ends, equals⟩ := hs.cons ends sign
    obtain ⟨⟨v, last⟩, found, same⟩ := Option.bind_eq_some_iff.1 read
    obtain ⟨rfl, rfl⟩ := Prod.mk.inj (Option.some.inj same)
    rcases hs (ends.tail (by decide)) with empty | ⟨ends, append⟩
    · rw [empty, nil] at found
      cases found
    obtain ⟨ends, value⟩ := hv ends found
    refine ⟨ends, fun more ↦ ?_⟩
    simp [assignment?, behind more, equals more, append more, value more]
  · cases read

/-- A value keeps to the lines at hand if the values inside it do. The reader of the inner values is
missing at the bottom of the nesting. -/
theorem byLines_valueFrom? {inner? : Option (Reader Value)}
    (h : ∀ inner, inner? = some inner → ByLines inner.read ∧ inner.read [] = none) :
    ByLines (valueFrom? inner?) := by
  intro cs v rest ends read
  unfold valueFrom? at read
  split at read
  · next left =>
    obtain ⟨inner, is, read⟩ := Option.bind_eq_some_iff.1 read
    obtain ⟨⟨vs, last⟩, found, same⟩ := Option.bind_eq_some_iff.1 read
    obtain ⟨rfl, rfl⟩ := Prod.mk.inj (Option.some.inj same)
    obtain ⟨ends, append⟩ := byLines_parts? (h inner is).1 (by decide) (ends.tail (by decide)) found
    refine ⟨ends, fun more ↦ ?_⟩
    simp [valueFrom?, is, append more]
  · next left =>
    obtain ⟨inner, is, read⟩ := Option.bind_eq_some_iff.1 read
    obtain ⟨⟨assignments, last⟩, found, read⟩ := Option.bind_eq_some_iff.1 read
    obtain ⟨t, table, same⟩ := Option.bind_eq_some_iff.1 read
    obtain ⟨rfl, rfl⟩ := Prod.mk.inj (Option.some.inj same)
    have part : ByLines inner.assignment.read :=
      byLines_assignment? skipsByLines_skipSpace (h inner is).1 (h inner is).2
    obtain ⟨ends, append⟩ := byLines_parts? part (by decide) (ends.tail (by decide)) found
    refine ⟨ends, fun more ↦ ?_⟩
    simp [valueFrom?, is, append more, table]
  · exact byLines_string?.map Value.string ends read
  · exact byLines_string?.map Value.string ends read
  · next bracket brace quote apostrophe =>
    obtain ⟨last, append⟩ := byLines_scalar ends read
    refine ⟨last, fun more ↦ ?_⟩
    rw [valueFrom?.eq_5 _ _ (ends.append_ne_cons bracket more) (ends.append_ne_cons brace more)
      (ends.append_ne_cons quote more) (ends.append_ne_cons apostrophe more), append]

/-- Values of any depth keep to the lines at hand, by induction on how many brackets may still be
opened. -/
theorem byLines_value (depth : Nat) : ByLines (Reader.value depth).read := by
  induction depth with
  | zero => exact byLines_valueFrom? (by simp)
  | succ depth ih =>
    refine byLines_valueFrom? fun inner is ↦ ?_
    obtain rfl := Option.some.inj is
    exact ⟨ih, Reader.read_value_nil depth⟩

/-! ### Statements -/

/-- Headers of either kind and assignments end before the last line end does. -/
theorem byLines_statement? : ByLines statement? := by
  intro cs s rest h read
  unfold statement? at read
  split at read
  · next front =>
    have ends := (h.tail (by decide)).tail (by decide)
    obtain ⟨⟨key, left⟩, found, read⟩ := Option.bind_eq_some_iff.1 read
    obtain ⟨ends', append⟩ := byLines_key? ends.skipBlanks found
    dsimp only at read
    split at read
    · next tail =>
      obtain ⟨rfl, rfl⟩ := Prod.mk.inj (Option.some.inj read)
      refine ⟨(ends'.tail (by decide)).tail (by decide), fun more ↦ ?_⟩
      simp [statement?, ends.skipBlanks_append, append more]
    · cases read
  · next front single =>
    have ends := h.tail (by decide)
    obtain ⟨⟨key, left⟩, found, read⟩ := Option.bind_eq_some_iff.1 read
    obtain ⟨ends', append⟩ := byLines_key? ends.skipBlanks found
    dsimp only at read
    split at read
    · next tail =>
      obtain ⟨rfl, rfl⟩ := Prod.mk.inj (Option.some.inj read)
      refine ⟨ends'.tail (by decide), fun more ↦ ?_⟩
      rw [List.cons_append, statement?.eq_2 _ (ends.append_ne_cons single more)]
      simp [ends.skipBlanks_append, append more]
    · cases read
  · next double single =>
    obtain ⟨⟨⟨key, v⟩, left⟩, found, same⟩ := Option.bind_eq_some_iff.1 read
    obtain ⟨rfl, rfl⟩ := Prod.mk.inj (Option.some.inj same)
    obtain ⟨ends, append⟩ := byLines_assignment? skipsByLines_skipBlanks
      (byLines_value nestingLimit) (Reader.read_value_nil _) h found
    refine ⟨ends, fun more ↦ ?_⟩
    rw [statement?.eq_3]
    · rw [append]
      rfl
    · intro rest same
      exact h.append_ne_cons single more _ same
    · exact h.append_ne_cons single more

/-! ### Lines -/

/-- Complete lines with these statements on them: the text ends with a line end, if it is not
empty. -/
structure Lines (cs : List Char) (ss : List Statement) : Prop where
  reads : statements? cs = some ss
  ends : cs = [] ∨ EndsLine cs

/-- Blank lines and comments alone make no statement. -/
theorem statements?_nil (front : skipSpace cs = []) : statements? cs = some [] := by
  rw [statements?]
  split
  · rfl
  · next c left same => cases front.symm.trans same

/-- A statement must be the only one on its line, and the others follow from the next line on. -/
theorem statements?_cons {c : Char} {front left : List Char} {s : Statement}
    (here : skipSpace cs = c :: front) (first : statement? (c :: front) = some (s, rest))
    (line : endLine? rest = some left) : statements? cs = (statements? left).map (s :: ·) := by
  rw [statements?]
  split
  · next none => cases here.symm.trans none
  · next d front' same =>
    obtain ⟨rfl, rfl⟩ := List.cons.inj (here.symm.trans same)
    split
    · next none => cases first.symm.trans none
    · next t rest' found =>
      obtain ⟨rfl, rfl⟩ := Prod.mk.inj (Option.some.inj (first.symm.trans found))
      split
      · next none => cases line.symm.trans none
      · next left' found => rw [Option.some.inj (line.symm.trans found)]

/-- Only what is left in front of the first statement counts. -/
theorem statements?_of_skipSpace {ds : List Char} (same : skipSpace cs = skipSpace ds) :
    statements? cs = statements? ds := by
  have half {cs ds : List Char} (same : skipSpace cs = skipSpace ds) {ss : List Statement}
      (h : statements? cs = some ss) : statements? ds = some ss := by
    revert h
    fun_cases statements? cs with
    | case1 front =>
      rw [statements?_nil (same.symm.trans front)]
      exact id
    | case2 => exact fun h ↦ by cases h
    | case3 => exact fun h ↦ by cases h
    | case4 c front here s rest first left line =>
      rw [statements?_cons (same.symm.trans here) first line]
      exact id
  exact Option.ext fun ss ↦ ⟨half same, half same.symm⟩

/-- Behind complete lines a document goes on as one of its own. -/
theorem Lines.statements?_append {ss : List Statement} (h : Lines cs ss) (more : List Char) :
    statements? (cs ++ more) = (statements? more).map (ss ++ ·) := by
  obtain ⟨reads, ends⟩ := h
  -- Along the reader: what it leaves behind a statement are complete lines again.
  fun_induction statements? cs generalizing ss with
  | case1 cs front =>
    obtain rfl := Option.some.inj reads
    have skipped : skipSpace (cs ++ more) = skipSpace more := by
      rcases ends with rfl | ends
      · rfl
      · rcases ends.skipSpaceFrom false with ⟨-, append⟩ | ⟨goesOn, -⟩
        · exact append more
        · exact absurd front goesOn.ne_nil
    rw [statements?_of_skipSpace skipped]
    simp
  | case2 => cases reads
  | case3 => cases reads
  | case4 cs c front here s rest first left line shorter ih =>
    obtain ⟨ts, later, rfl⟩ := Option.map_eq_some_iff.1 reads
    have ends : EndsLine cs := by
      rcases ends with rfl | ends
      · cases here
      · exact ends
    obtain ⟨ends, before⟩ := skipsByLines_skipSpace.cons ends here
    obtain ⟨ends, said⟩ := byLines_statement? ends first
    obtain ⟨ends, end'⟩ := ends.endLine? line
    rw [statements?_cons (before more) (said more) (end' more), ih later ends, Option.map_map]
    rfl

end FlatDecls.Toml
