import FlatDecls.Json.Token
import FlatDecls.Proofs.Text.Digits

/-!
# The grammar of numbers

How a numeral may be written, apart from any reader: a sign, digits of which a zero only begins
the number zero, a fraction and an exponent with at least one digit each. Scanning reads back what
was written, if nothing follows that could belong to the number (`scanNumber_append`), and what it
reads was written so (`written_of_scanNumber`).
-/

namespace FlatDecls.Json

open Text (DecimalDigit decimalDigit_iff isDigit digitValue)

namespace Numeral

/-! ### Grammar -/

/-- Decimal digits with these values. -/
def DigitsWritten (ds : List Nat) (cs : List Char) : Prop := List.Forall₂ DecimalDigit ds cs

/-- The digits before the point: a leading zero stands alone. -/
structure WholeWritten (ds : List Nat) (cs : List Char) : Prop where
  digits : DigitsWritten ds cs
  nonempty : ds ≠ []
  leading : ∀ d rest, ds ≠ 0 :: d :: rest

/-- A fraction, which may be missing. -/
inductive FractionWritten : List Nat → List Char → Prop
  | missing : FractionWritten [] []
  | point {ds : List Nat} {cs : List Char} (digits : DigitsWritten ds cs) (nonempty : ds ≠ []) :
      FractionWritten ds ('.' :: cs)

/-- The sign of an exponent; only a plus may be missing. -/
inductive SignWritten : (minus : Bool) → List Char → Prop
  | missing : SignWritten false []
  | plus : SignWritten false ['+']
  | minus : SignWritten true ['-']

/-- An exponent, which may be missing. -/
inductive ExponentWritten : Option (Bool × List Nat) → List Char → Prop
  | missing : ExponentWritten none []
  | letter {e : Char} {minus : Bool} {ds : List Nat} {ss cs : List Char}
      (letter : e = 'e' ∨ e = 'E') (sign : SignWritten minus ss) (digits : DigitsWritten ds cs)
      (nonempty : ds ≠ []) :
      ExponentWritten (some (minus, ds)) (e :: (ss ++ cs))

/-- A numeral without its sign. -/
inductive BodyWritten (n : Numeral) : List Char → Prop
  | mk {ws fs es : List Char} (whole : WholeWritten n.whole ws)
      (fraction : FractionWritten n.fraction fs) (exponent : ExponentWritten n.exponent es) :
      BodyWritten n (ws ++ (fs ++ es))

/-- A numeral. -/
inductive Written (n : Numeral) : List Char → Prop
  | plain {cs : List Char} (sign : n.negative = false) (body : BodyWritten n cs) : Written n cs
  | minus {cs : List Char} (sign : n.negative = true) (body : BodyWritten n cs) :
      Written n ('-' :: cs)

/-- May this character go on with a number? -/
def goesOn (c : Char) : Bool := isDigit c || c = '.' || c = 'e' || c = 'E'

/-- What follows does not belong to a number in front of it. -/
def Ends (rest : List Char) : Prop := ∀ c ∈ rest.head?, goesOn c = false

end Numeral

open Numeral

variable {cs rest : List Char} {ds : List Nat}

/-! ### Digits -/

/-- Digits are written exactly as characters that are read as digits of these values. -/
theorem digitsWritten_iff :
    DigitsWritten ds cs ↔ (∀ c ∈ cs, isDigit c = true) ∧ cs.map digitValue = ds := by
  constructor
  · intro h
    induction h with
    | nil => simp
    | cons first _ ih =>
      obtain ⟨digit, value⟩ := decimalDigit_iff.1 first
      exact ⟨List.forall_mem_cons.2 ⟨digit, ih.1⟩, congrArg₂ List.cons value ih.2⟩
  · rintro ⟨digits, rfl⟩
    rw [DigitsWritten, List.forall₂_map_left_iff, List.forall₂_same]
    exact fun c hc ↦ decimalDigit_iff.2 ⟨digits c hc, rfl⟩

/-- Digits are written in front of no other digit. -/
theorem scanDigits_append (h : DigitsWritten ds cs) (stop : ∀ c ∈ rest.head?, isDigit c = false) :
    scanDigits (cs ++ rest) = (ds, rest) := by
  have none : rest.takeWhile isDigit = [] ∧ rest.dropWhile isDigit = rest := by
    cases rest with
    | nil => exact ⟨rfl, rfl⟩
    | cons c rest => simp [stop c rfl]
  obtain ⟨digits, values⟩ := digitsWritten_iff.1 h
  rw [scanDigits, List.takeWhile_append_of_pos digits, List.dropWhile_append_of_pos digits,
    none.1, none.2, List.append_nil, values]

/-- Digits are read up to the first character that is none. -/
theorem scanSomeDigits_append (h : DigitsWritten ds cs) (nonempty : ds ≠ [])
    (stop : ∀ c ∈ rest.head?, isDigit c = false) :
    scanSomeDigits (cs ++ rest) = .ok (ds, rest) := by
  rw [scanSomeDigits, scanDigits_append h stop]
  split
  next none => exact absurd (congrArg Prod.fst none) nonempty
  next => rfl

/-- What was read as digits was written as digits. -/
theorem written_of_scanSomeDigits (h : scanSomeDigits cs = .ok (ds, rest)) :
    ∃ w, DigitsWritten ds w ∧ ds ≠ [] ∧ cs = w ++ rest := by
  rw [scanSomeDigits] at h
  split at h
  next => cases h
  next nonempty =>
    obtain ⟨rfl, rfl⟩ := Prod.mk.inj (Except.ok.inj h)
    have digits := digitsWritten_iff.2 ⟨List.all_eq_true.1 (List.all_takeWhile (l := cs)), rfl⟩
    refine ⟨cs.takeWhile isDigit, digits, ?_, List.takeWhile_append_dropWhile.symm⟩
    exact fun none ↦ nonempty _ (Prod.ext none rfl)

/-! ### Parts of a number -/

/-- A zero stands alone, other digits are read to their end. -/
theorem scanWhole_append (h : WholeWritten ds cs) (stop : ∀ c ∈ rest.head?, isDigit c = false) :
    scanWhole (cs ++ rest) = .ok (ds, rest) := by
  rw [scanWhole, scanSomeDigits_append h.digits h.nonempty stop]
  split
  next d left _ zero => exact absurd (congrArg Prod.fst (Except.ok.inj zero)) (h.leading d left)
  next => rfl

theorem written_of_scanWhole (h : scanWhole cs = .ok (ds, rest)) :
    ∃ w, WholeWritten ds w ∧ cs = w ++ rest := by
  rw [scanWhole] at h
  split at h
  next => cases h
  next other =>
    obtain ⟨w, digits, nonempty, rfl⟩ := written_of_scanSomeDigits h
    exact ⟨w, ⟨digits, nonempty, fun d left zero ↦ other d left rest (zero ▸ h)⟩, rfl⟩

/-- A fraction is written in front of neither a digit nor a point. -/
theorem scanFraction_append (h : FractionWritten ds cs)
    (stop : ∀ c ∈ rest.head?, isDigit c = false ∧ c ≠ '.') :
    scanFraction (cs ++ rest) = .ok (ds, rest) := by
  cases h with
  | missing =>
    rw [List.nil_append, scanFraction.eq_def]
    split
    next left => exact absurd rfl (stop '.' rfl).2
    next => rfl
  | point digits nonempty => exact scanSomeDigits_append digits nonempty fun c hc ↦ (stop c hc).1

/-- The fraction is absent, or a point with digits behind it was read. -/
theorem written_of_scanFraction (h : scanFraction cs = .ok (ds, rest)) :
    ∃ w, FractionWritten ds w ∧ cs = w ++ rest := by
  rw [scanFraction.eq_def] at h
  split at h
  next =>
    obtain ⟨w, digits, nonempty, rfl⟩ := written_of_scanSomeDigits h
    exact ⟨_, .point digits nonempty, rfl⟩
  next =>
    obtain ⟨rfl, rfl⟩ := Prod.mk.inj (Except.ok.inj h)
    exact ⟨[], .missing, rfl⟩

/-- A sign is written in front of a digit. -/
theorem scanSign_append {minus : Bool} {ss : List Char} (h : SignWritten minus ss) {c : Char}
    (digit : isDigit c = true) : scanSign (ss ++ c :: cs) = (minus, c :: cs) := by
  cases h with
  | missing =>
    rw [List.nil_append, scanSign.eq_def]
    split
    next plus => simp_all [isDigit]
    next minus => simp_all [isDigit]
    next => rfl
  | plus => rfl
  | minus => rfl

theorem written_of_scanSign (cs : List Char) :
    ∃ ss, SignWritten (scanSign cs).1 ss ∧ cs = ss ++ (scanSign cs).2 := by
  rw [scanSign.eq_def]
  split
  next => exact ⟨_, .plus, rfl⟩
  next => exact ⟨_, .minus, rfl⟩
  next => exact ⟨_, .missing, rfl⟩

/-- Digits of which there is one begin with a digit. -/
theorem exists_cons_of_digitsWritten (h : DigitsWritten ds cs) (nonempty : ds ≠ []) :
    ∃ c left, cs = c :: left ∧ isDigit c = true := by
  cases h with
  | nil => exact absurd rfl nonempty
  | cons first => exact ⟨_, _, rfl, (decimalDigit_iff.1 first).1⟩

/-- An exponent is written in front of neither a digit nor a letter. -/
theorem scanExponent_append {e : Option (Bool × List Nat)} (h : ExponentWritten e cs)
    (stop : ∀ c ∈ rest.head?, isDigit c = false ∧ c ≠ 'e' ∧ c ≠ 'E') :
    scanExponent (cs ++ rest) = .ok (e, rest) := by
  cases h with
  | missing =>
    rw [List.nil_append, scanExponent.eq_def]
    split
    next left => exact absurd rfl (stop 'e' rfl).2.1
    next left => exact absurd rfl (stop 'E' rfl).2.2
    next => rfl
  | @letter e minus ds ss cs letter sign digits nonempty =>
    obtain ⟨c, left, rfl, digit⟩ := exists_cons_of_digitsWritten digits nonempty
    have scanned : scanExponentDigits (ss ++ c :: left ++ rest) = .ok ((minus, ds), rest) := by
      rw [List.append_assoc, List.cons_append, scanExponentDigits, scanSign_append sign digit,
        ← List.cons_append, scanSomeDigits_append digits nonempty fun c hc ↦ (stop c hc).1]
      rfl
    rcases letter with rfl | rfl
    · rw [List.cons_append, scanExponent, scanned]
      rfl
    · rw [List.cons_append, scanExponent, scanned]
      rfl

theorem written_of_scanExponentDigits {minus : Bool}
    (h : scanExponentDigits cs = .ok ((minus, ds), rest)) :
    ∃ ss w, SignWritten minus ss ∧ DigitsWritten ds w ∧ ds ≠ [] ∧ cs = ss ++ w ++ rest := by
  obtain ⟨⟨ds, left⟩, scanned, h⟩ := eq_ok_of_bind h
  obtain ⟨same, rfl⟩ := Prod.mk.inj (Except.ok.inj h)
  obtain ⟨rfl, rfl⟩ := Prod.mk.inj same
  obtain ⟨ss, sign, split⟩ := written_of_scanSign cs
  obtain ⟨w, digits, nonempty, left⟩ := written_of_scanSomeDigits scanned
  exact ⟨ss, w, sign, digits, nonempty, by rw [List.append_assoc, ← left, ← split]⟩

/-- The exponent is absent, or its mark, its sign and its digits were read. -/
theorem written_of_scanExponent {e : Option (Bool × List Nat)}
    (h : scanExponent cs = .ok (e, rest)) : ∃ w, ExponentWritten e w ∧ cs = w ++ rest := by
  have letter {c : Char} {left : List Char} (letter : c = 'e' ∨ c = 'E')
      (h : (do let x ← scanExponentDigits left; return (some x.1, x.2)) = .ok (e, rest)) :
      ∃ w, ExponentWritten e w ∧ c :: left = w ++ rest := by
    obtain ⟨⟨⟨minus, ds⟩, left⟩, scanned, h⟩ := eq_ok_of_bind h
    obtain ⟨rfl, rfl⟩ := Prod.mk.inj (Except.ok.inj h)
    obtain ⟨ss, w, sign, digits, nonempty, rfl⟩ := written_of_scanExponentDigits scanned
    exact ⟨_, .letter letter sign digits nonempty, rfl⟩
  rw [scanExponent.eq_def] at h
  split at h
  next => exact letter (.inl rfl) h
  next => exact letter (.inr rfl) h
  next =>
    obtain ⟨rfl, rfl⟩ := Prod.mk.inj (Except.ok.inj h)
    exact ⟨[], .missing, rfl⟩

/-! ### Numbers -/

/-- What follows the fraction goes on with the number in no other way than by a letter. -/
theorem head?_exponent {e : Option (Bool × List Nat)} (h : ExponentWritten e cs)
    (stop : Ends rest) : ∀ c ∈ (cs ++ rest).head?, isDigit c = false ∧ c ≠ '.' := by
  cases h with
  | missing =>
    intro c hc
    have := stop c hc
    simp_all [goesOn]
  | letter letter => rcases letter with rfl | rfl <;> simp [isDigit]

/-- What follows the digits before the point is no digit. -/
theorem head?_fraction (h : FractionWritten ds cs) (stop : ∀ c ∈ rest.head?, isDigit c = false) :
    ∀ c ∈ (cs ++ rest).head?, isDigit c = false := by
  cases h with
  | missing => exact stop
  | point => simp [isDigit]

/-- A number is read back from its spelling, if what follows does not go on with it. -/
theorem scanNumber_append {n : Numeral} (h : BodyWritten n cs) (stop : Ends rest) :
    scanNumber n.negative (cs ++ rest) = .ok (.number n, rest) := by
  obtain ⟨whole, fraction, exponent⟩ := h
  -- each part ends where the next begins, so what follows is settled from the last part on
  have afterFraction := head?_exponent exponent stop
  have afterWhole := head?_fraction fraction fun c hc ↦ (afterFraction c hc).1
  rw [List.append_assoc, List.append_assoc, scanNumber, scanWhole_append whole afterWhole]
  show (do
    let f ← scanFraction (_ ++ (_ ++ rest))
    let e ← scanExponent f.2
    return (Atom.number ⟨n.negative, n.whole, f.1, e.1⟩, e.2)) = _
  rw [scanFraction_append fraction afterFraction]
  show (do
    let e ← scanExponent (_ ++ rest)
    return (Atom.number ⟨n.negative, n.whole, n.fraction, e.1⟩, e.2)) = _
  rw [scanExponent_append exponent fun c hc ↦ by have := stop c hc; simp_all [goesOn]]
  rfl

/-- Whatever is read as a number is a spelling of it. -/
theorem written_of_scanNumber {negative : Bool} {a : Atom}
    (h : scanNumber negative cs = .ok (a, rest)) :
    ∃ n w, a = .number n ∧ n.negative = negative ∧ BodyWritten n w ∧ cs = w ++ rest := by
  obtain ⟨⟨whole, cs₁⟩, hw, h⟩ := eq_ok_of_bind h
  obtain ⟨⟨fraction, cs₂⟩, hf, h⟩ := eq_ok_of_bind h
  obtain ⟨⟨exponent, cs₃⟩, he, h⟩ := eq_ok_of_bind h
  obtain ⟨rfl, rfl⟩ := Prod.mk.inj (Except.ok.inj h)
  obtain ⟨ws, whole, rfl⟩ := written_of_scanWhole hw
  obtain ⟨fs, fraction, rfl⟩ := written_of_scanFraction hf
  obtain ⟨es, exponent, rfl⟩ := written_of_scanExponent he
  exact ⟨_, _, rfl, rfl, .mk whole fraction exponent, by simp only [List.append_assoc]⟩

end FlatDecls.Json
