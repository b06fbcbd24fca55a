import FlatDecls.Json.Token
import FlatDecls.Proofs.Text.Digits

/-!
# The grammar of strings

How the inside of a string may be written, apart from any reader: piece by piece, each a plain
character, an escape of one letter, or a hexadecimal escape of a code unit
(`Piece.Written`). The pieces stand for the characters of the string, where two code units of a
surrogate pair stand for one (`Piece.StandFor`), or for none, if a surrogate stands alone
(`Piece.Alone`).

Scanning reads back exactly the pieces that were written, up to the first quote behind a whole
piece (`scanPieces_eq_iff`). Joining gives exactly what they stand for (`Piece.join_eq_ok_iff`), or
a fault at the first surrogate that stands alone (`Piece.join_eq_error_iff`).
-/

namespace FlatDecls.Json

open Text (HexDigit hexDigit?_eq_some_iff positional positional_lt_of_hexDigits)

/-- Things written one behind the other with nothing between them. -/
inductive InARow (written : α → List Char → Prop) : List α → List Char → Prop
  | nil : InARow written [] []
  | cons {x : α} {xs : List α} {cs ds : List Char} (first : written x cs)
      (rest : InARow written xs ds) : InARow written (x :: xs) (cs ++ ds)

namespace Piece

/-! ### Grammar -/

/-- The letters of escapes and what they stand for. -/
def shortEscapes : List (Char × Char) :=
  [('"', '"'), ('\\', '\\'), ('/', '/'), ('b', '\x08'), ('f', '\x0c'), ('n', '\n'),
    ('r', '\r'), ('t', '\t')]

/-- How a piece of a string may be written. -/
inductive Written : Piece → List Char → Prop
  | plain {c : Char} (printed : 0x20 ≤ c.toNat) (quote : c ≠ '"') (backslash : c ≠ '\\') :
      Written (.char c) [c]
  | short {e c : Char} (letter : (e, c) ∈ shortEscapes) : Written (.char c) ['\\', e]
  | unit {a b c d : Char} {ds : List Nat} {n : Nat}
      (digits : List.Forall₂ HexDigit ds [a, b, c, d]) (number : positional 16 ds = n) :
      Written (.unit n) ['\\', 'u', a, b, c, d]

/-- A code unit that is the first half of a surrogate pair. -/
def High (n : Nat) : Prop := 0xD800 ≤ n ∧ n < 0xDC00

/-- A code unit that is the second half of a surrogate pair. -/
def Low (n : Nat) : Prop := 0xDC00 ≤ n ∧ n < 0xE000

/-- The characters that pieces stand for, if no surrogate stands alone: a code unit for the
character of its number, a surrogate pair for the character whose number it carries, ten bits in
each half. No character has the number of a surrogate. -/
inductive StandFor : List Piece → List Char → Prop
  | nil : StandFor [] []
  | char {c : Char} {ps : List Piece} {cs : List Char} (rest : StandFor ps cs) :
      StandFor (.char c :: ps) (c :: cs)
  | unit {n : Nat} {c : Char} {ps : List Piece} {cs : List Char} (number : c.toNat = n)
      (rest : StandFor ps cs) : StandFor (.unit n :: ps) (c :: cs)
  | pair {n m : Nat} {c : Char} {ps : List Piece} {cs : List Char} (high : High n) (low : Low m)
      (number : c.toNat = 0x10000 + (n - 0xD800) * 0x400 + (m - 0xDC00))
      (rest : StandFor ps cs) : StandFor (.unit n :: .unit m :: ps) (c :: cs)

/-- The first of these pieces is a surrogate that stands alone. A first half is cut off if no other
code unit follows it. -/
inductive BeginAlone : List Piece → Fault → Prop
  | low {n : Nat} {ps : List Piece} (low : Low n) : BeginAlone (.unit n :: ps) .loneSurrogate
  | mismatched {n m : Nat} {ps : List Piece} (high : High n) (other : ¬ Low m) :
      BeginAlone (.unit n :: .unit m :: ps) .loneSurrogate
  | cut {n : Nat} {c : Char} {ps : List Piece} (high : High n) :
      BeginAlone (.unit n :: .char c :: ps) .cutSurrogate
  | last {n : Nat} (high : High n) : BeginAlone [.unit n] .cutSurrogate

/-- Among the pieces a surrogate stands alone, and the fault is that of the first. -/
inductive Alone : List Piece → Fault → Prop
  | mk {front ps : List Piece} {cs : List Char} {f : Fault} (text : StandFor front cs)
      (alone : BeginAlone ps f) : Alone (front ++ ps) f

/-! ### Joining -/

variable {cut f : Fault} {n : Nat} {c : Char} {ps : List Piece} {cs : List Char}

/-- The reader's test agrees with the range of the units that begin a pair. -/
theorem isHigh_iff : isHigh n = true ↔ High n := by
  simp [isHigh, High]

/-- And with the range of those that end one. -/
theorem isLow_iff : isLow n = true ↔ Low n := by
  simp [isLow, Low]

theorem isHigh_eq_false_iff : isHigh n = false ↔ ¬ High n := by
  rw [← isHigh_iff, Bool.not_eq_true]

theorem isLow_eq_false_iff : isLow n = false ↔ ¬ Low n := by
  rw [← isLow_iff, Bool.not_eq_true]

/-- The number of a character is neither half of a surrogate pair. -/
theorem not_surrogate_toNat (c : Char) : ¬ High c.toNat ∧ ¬ Low c.toNat := by
  have valid : c.toNat < 0xD800 ∨ 0xDFFF < c.toNat ∧ c.toNat < 0x110000 := c.valid
  constructor
  · rintro ⟨least, most⟩
    omega
  · rintro ⟨least, most⟩
    omega

/-- The number of a character that is made of a number below all surrogates or above them. -/
theorem toNat_ofNat {n : Nat} (h : n < 0xD800 ∨ 0xDFFF < n ∧ n < 0x110000) :
    (Char.ofNat n).toNat = n := by
  rw [Char.ofNat, dif_pos h]
  rfl

/-- The character of a surrogate pair has the number that the pair carries. -/
theorem toNat_pair {n m : Nat} (high : High n) (low : Low m) :
    (pair n m).toNat = 0x10000 + (n - 0xD800) * 0x400 + (m - 0xDC00) := by
  obtain ⟨-, high⟩ := high
  obtain ⟨-, low⟩ := low
  exact toNat_ofNat (.inr ⟨by omega, by omega⟩)

/-- A code unit of no surrogate is a character, whatever piece follows it. -/
theorem join_unit_cons (high : ¬ High n) (low : ¬ Low n) :
    join cut (.unit n :: ps) = (Char.ofNat n :: ·) <$> join cut ps := by
  rcases ps with _ | ⟨_ | m, ps⟩ <;>
    simp [join, isHigh_eq_false_iff.2 high, isLow_eq_false_iff.2 low]

/-- Pieces that stand for characters are joined to these, whatever pieces follow. -/
theorem join_append (h : StandFor ps cs) (rest : List Piece) :
    join cut (ps ++ rest) = (cs ++ ·) <$> join cut rest := by
  induction h with
  | nil => exact (id_map _).symm
  | char _ ih =>
    rw [List.cons_append, join, ih]
    cases join cut rest <;> rfl
  | @unit n c ps cs number _ ih =>
    obtain ⟨high, low⟩ := not_surrogate_toNat c
    rw [List.cons_append, ← number, join_unit_cons high low, ih, Char.ofNat_toNat]
    cases join cut rest <;> rfl
  | @pair n m c ps cs high low number _ ih =>
    have same : c.toNat = (pair n m).toNat := number.trans (toNat_pair high low).symm
    rw [Char.toNat_inj.1 same, List.cons_append, List.cons_append, join, if_pos (isHigh_iff.2 high),
      if_pos (isLow_iff.2 low), ih]
    cases join cut rest <;> rfl

/-- Pieces that stand for characters are joined to these characters, by induction along the
pieces. -/
theorem join_of_standFor (h : StandFor ps cs) : join cut ps = .ok cs := by
  have joined : join cut (ps ++ []) = (cs ++ ·) <$> .ok [] := join_append h []
  rw [List.append_nil] at joined
  rw [joined]
  exact congrArg Except.ok (List.append_nil cs)

/-- A half pair at the front is found before anything else is. -/
theorem join_of_beginAlone (h : BeginAlone ps f) : join .cutSurrogate ps = .error f := by
  cases h with
  | @low n ps low =>
    have high : isHigh n = false := by
      rw [isHigh_eq_false_iff]
      rintro ⟨-, most⟩
      exact absurd low.1 (Nat.not_le.2 most)
    rcases ps with _ | ⟨_ | m, ps⟩ <;> simp [join, high, isLow_iff.2 low]
  | mismatched high other =>
    rw [join, if_pos (isHigh_iff.2 high), if_neg (mt isLow_iff.1 other)]
  | cut high => rw [join, if_pos (isHigh_iff.2 high)]
  | last high => rw [join, if_pos (isHigh_iff.2 high)]

/-- Whatever characters stand in front of it, a half pair is found. -/
theorem join_of_alone (h : Alone ps f) : join .cutSurrogate ps = .error f := by
  obtain ⟨text, alone⟩ := h
  rw [join_append text, join_of_beginAlone alone]
  rfl

/-- One more character in front. -/
theorem Alone.cons {p : Piece} (stands : ∀ ps cs, StandFor ps cs → StandFor (p :: ps) (c :: cs))
    (h : Alone ps f) : Alone (p :: ps) f := by
  obtain ⟨text, alone⟩ := h
  exact .mk (stands _ _ text) alone

/-- The code units among the pieces have sixteen bits. -/
def Small (ps : List Piece) : Prop := ∀ n, .unit n ∈ ps → n < 0x10000

theorem Small.tail {p : Piece} (h : Small (p :: ps)) : Small ps :=
  fun n mem ↦ h n (List.mem_cons_of_mem _ mem)

/-- Pieces stand for characters unless a surrogate stands alone among them. -/
theorem standFor_or_alone (small : Small ps) :
    (∃ cs, StandFor ps cs) ∨ ∃ f, Alone ps f := by
  -- the cases are those of joining, which looks at two code units where the first is a first half
  have one {p : Piece} {c : Char} {ps : List Piece}
      (stands : ∀ ps cs, StandFor ps cs → StandFor (p :: ps) (c :: cs)) :
      ((∃ cs, StandFor ps cs) ∨ ∃ f, Alone ps f) →
        (∃ cs, StandFor (p :: ps) cs) ∨ ∃ f, Alone (p :: ps) f :=
    Or.imp (fun ⟨cs, text⟩ ↦ ⟨c :: cs, stands ps cs text⟩) fun ⟨f, alone⟩ ↦ ⟨f, alone.cons stands⟩
  fun_induction join .cutSurrogate ps with
  | case1 => exact .inl ⟨[], .nil⟩
  | case2 c ps ih => exact one (fun _ _ ↦ .char) (ih small.tail)
  | case3 n high => exact .inr ⟨_, .mk .nil (.last (isHigh_iff.1 high))⟩
  | case4 n high c ps => exact .inr ⟨_, .mk .nil (.cut (isHigh_iff.1 high))⟩
  | case5 n high m ps low ih =>
    have high := isHigh_iff.1 high
    have low := isLow_iff.1 low
    rcases ih small.tail.tail with ⟨cs, text⟩ | ⟨f, ⟨text, alone⟩⟩
    · exact .inl ⟨_, .pair high low (toNat_pair high low) text⟩
    · exact .inr ⟨f, .mk (.pair high low (toNat_pair high low) text) alone⟩
  | case6 n high m ps low =>
    exact .inr ⟨_, .mk .nil (.mismatched (isHigh_iff.1 high) (mt isLow_iff.2 low))⟩
  | case7 n ps high low => exact .inr ⟨_, .mk .nil (.low (isLow_iff.1 low))⟩
  | case8 n ps high low ih =>
    have below := small n List.mem_cons_self
    have number : (Char.ofNat n).toNat = n := by
      rw [isHigh_iff, High] at high
      rw [isLow_iff, Low] at low
      exact toNat_ofNat (by omega)
    exact one (fun _ _ ↦ .unit number) (ih small.tail)

/-- Joining gives what the pieces stand for. -/
theorem join_eq_ok_iff (small : Small ps) : join .cutSurrogate ps = .ok cs ↔ StandFor ps cs := by
  refine ⟨fun h ↦ ?_, join_of_standFor⟩
  rcases standFor_or_alone small with ⟨ds, text⟩ | ⟨f, alone⟩
  · obtain rfl := Except.ok.inj (h.symm.trans (join_of_standFor text))
    exact text
  · cases h.symm.trans (join_of_alone alone)

/-- Joining fails at the first surrogate that stands alone. -/
theorem join_eq_error_iff (small : Small ps) : join .cutSurrogate ps = .error f ↔ Alone ps f := by
  refine ⟨fun h ↦ ?_, join_of_alone⟩
  rcases standFor_or_alone small with ⟨cs, text⟩ | ⟨g, alone⟩
  · cases h.symm.trans (join_of_standFor text)
  · obtain rfl := Except.error.inj (h.symm.trans (join_of_alone alone))
    exact alone

end Piece

/-! ### Scanning -/

/-- Four hexadecimal digits stand for a number of sixteen bits. -/
theorem Piece.small_of_inARow {ps : List Piece} {body : List Char}
    (h : InARow Piece.Written ps body) : Piece.Small ps := by
  induction h with
  | nil => exact fun n mem ↦ nomatch mem
  | cons first _ ih =>
    intro n mem
    rcases List.mem_cons.1 mem with rfl | mem
    · cases first with
      | unit digits number =>
        have below := positional_lt_of_hexDigits digits
        rw [digits.length_eq, number] at below
        simpa using below
    · exact ih n mem

/-- The letters that are read as escapes, and what for, are those of the grammar. -/
theorem shortEscape?_eq_some_iff {e c : Char} :
    shortEscape? e = some c ↔ (e, c) ∈ Piece.shortEscapes := by
  constructor
  · intro h
    unfold shortEscape? at h
    split at h
    case h_9 => cases h
    all_goals
      obtain rfl := Option.some.inj h
      decide
  · intro letter
    have each : Piece.shortEscapes.all (fun l ↦ shortEscape? l.1 = some l.2) = true := rfl
    simpa using List.all_eq_true.1 each (e, c) letter

/-- The letter of a hexadecimal escape is not an escape of its own. -/
theorem ne_of_shortEscape {e c : Char} (h : (e, c) ∈ Piece.shortEscapes) : e ≠ 'u' := by
  rintro rfl
  cases shortEscape?_eq_some_iff.2 h

/-- Four digits are read as the number that they stand for. -/
theorem hexUnit?_eq_some_iff {a b c d : Char} {n : Nat} :
    hexUnit? a b c d = some n ↔
      ∃ ds, List.Forall₂ HexDigit ds [a, b, c, d] ∧ positional 16 ds = n := by
  have value (i j k l : Nat) : positional 16 [i, j, k, l] = ((i * 16 + j) * 16 + k) * 16 + l := by
    simp only [positional, List.length_cons, List.length_nil]
    omega
  simp only [hexUnit?, Option.bind_eq_bind, Option.bind_eq_some_iff, hexDigit?_eq_some_iff]
  constructor
  · rintro ⟨i, hi, j, hj, k, hk, l, hl, same⟩
    obtain rfl := Option.some.inj same
    exact ⟨_, .cons hi (.cons hj (.cons hk (.cons hl .nil))), value i j k l⟩
  · rintro ⟨_, _ | ⟨hi, _ | ⟨hj, _ | ⟨hk, _ | ⟨hl, _ | _⟩⟩⟩⟩, rfl⟩
    exact ⟨_, hi, _, hj, _, hk, _, hl, congrArg some (value _ _ _ _).symm⟩

/-- A written piece is scanned, and scanning goes on behind it. -/
theorem scanPieces_append {p : Piece} {w : List Char} (h : p.Written w) (cs : List Char) :
    scanPieces (w ++ cs) = (p :: (scanPieces cs).1, (scanPieces cs).2) := by
  cases h with
  | plain printed quote backslash => simp [scanPieces, backslash, Nat.not_lt.2 printed]
  | short letter =>
    simp [scanPieces, ne_of_shortEscape letter, shortEscape?_eq_some_iff.2 letter]
  | unit digits number =>
    simp [scanPieces, hexUnit?_eq_some_iff.2 ⟨_, digits, number⟩]

/-- Pieces are read one after another up to the closing quote. -/
theorem scanPieces_of_inARow {ps : List Piece} {body : List Char} (rest : List Char)
    (h : InARow Piece.Written ps body) : scanPieces (body ++ '"' :: rest) = (ps, .ok rest) := by
  induction h with
  | nil => rfl
  | cons first _ ih => rw [List.append_assoc, scanPieces_append first, ih]

/-- What was read up to a closing quote was written as these pieces. -/
theorem inARow_of_scanPieces {cs rest : List Char} (h : (scanPieces cs).2 = .ok rest) :
    ∃ body, InARow Piece.Written (scanPieces cs).1 body ∧ cs = body ++ '"' :: rest := by
  fun_induction scanPieces cs with
  | case1 => simp at h
  | case2 left =>
    obtain rfl := by simpa using h
    exact ⟨[], .nil, rfl⟩
  | case3 => simp at h
  | case4 => simp at h
  | case5 a b c d left n digits ps after scanned ih =>
    obtain ⟨body, written, rfl⟩ := ih (by simpa [scanned] using h)
    rw [scanned] at written
    obtain ⟨ds, digits, number⟩ := hexUnit?_eq_some_iff.1 digits
    exact ⟨_, .cons (.unit digits number) written, rfl⟩
  | case6 => simp at h
  | case7 => simp at h
  | case8 e left _ _ c letter ps after scanned ih =>
    obtain ⟨body, written, rfl⟩ := ih (by simpa [scanned] using h)
    rw [scanned] at written
    exact ⟨_, .cons (.short (shortEscape?_eq_some_iff.1 letter)) written, rfl⟩
  | case9 => simp at h
  | case10 c left quote last _ _ escape printed ps after scanned ih =>
    have backslash : c ≠ '\\' := by
      intro h
      cases left with
      | nil => exact last h rfl
      | cons d ds => exact escape d ds h rfl
    obtain ⟨body, written, rfl⟩ := ih (by simpa [scanned] using h)
    rw [scanned] at written
    exact ⟨_, .cons (.plain (Nat.not_lt.1 printed) quote backslash) written, rfl⟩

/-- Scanning reads back the pieces that were written in front of the closing quote. -/
theorem scanPieces_eq_iff {cs rest : List Char} {ps : List Piece} :
    scanPieces cs = (ps, .ok rest) ↔
      ∃ body, InARow Piece.Written ps body ∧ cs = body ++ '"' :: rest := by
  constructor
  · intro h
    obtain ⟨body, written, rfl⟩ := inARow_of_scanPieces (congrArg Prod.snd h)
    exact ⟨body, by rwa [h] at written, rfl⟩
  · rintro ⟨body, written, rfl⟩
    exact scanPieces_of_inARow rest written

end FlatDecls.Json
