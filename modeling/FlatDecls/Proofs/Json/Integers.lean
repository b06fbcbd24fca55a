import FlatDecls.Proofs.Json.Numerals
import FlatDecls.Word

/-!
# Integers as numerals

A numeral denotes an integer if it is a sign and digits (`Numeral.Denotes`). Within 64 bits that is
the integer that it stands for to a decoder (`Numeral.quantity_eq_integer_iff`); outside it stands
for a double. An integer is written in decimal digits that do not begin with a zero
(`Numeral.written_ofInt`).
-/

namespace FlatDecls.Json

open Text (digitValue isDigit ofDigits ofDigits_eq_positional positional)
open Decimal (pow2)

namespace Numeral

/-! ### Denotation -/

/-- The numeral is a sign and digits that give this integer; zero has no minus sign. -/
structure Denotes (m : Numeral) (i : Int) : Prop where
  fraction : m.fraction = []
  exponent : m.exponent = none
  digits : positional 10 m.whole = i.natAbs
  sign : m.negative = decide (i < 0)

variable {m : Numeral} {i : Int}

/-- A numeral stands for an integer if it denotes one that fits into 64 bits, with or without a
sign. -/
theorem quantity_eq_integer_iff :
    m.quantity = .integer i ↔ m.Denotes i ∧ -(pow2 63 : Int) ≤ i ∧ i ≤ wordMax := by
  have whole : m.isWhole = true ↔ m.fraction = [] ∧ m.exponent = none := by simp [isWhole]
  constructor
  · intro h
    rw [quantity, ofDigits_eq_positional] at h
    split at h
    next plain =>
      have ⟨⟨digits, plus⟩, fits⟩ : (m.isWhole = true ∧ m.negative = false) ∧
          positional 10 m.whole ≤ wordMax := by simpa using plain
      cases h
      have sign : m.negative = decide ((positional 10 m.whole : Int) < 0) := by
        rw [plus, decide_eq_false (by omega)]
      exact ⟨⟨(whole.1 digits).1, (whole.1 digits).2, rfl, sign⟩, by omega, by omega⟩
    split at h
    next signed =>
      have ⟨⟨⟨digits, minus⟩, nonzero⟩, fits⟩ : ((m.isWhole = true ∧ m.negative = true) ∧
          positional 10 m.whole ≠ 0) ∧ positional 10 m.whole ≤ pow2 63 := by simpa using signed
      cases h
      have sign : m.negative = decide (-(positional 10 m.whole : Int) < 0) := by
        rw [minus, decide_eq_true (by omega)]
      exact ⟨⟨(whole.1 digits).1, (whole.1 digits).2, by omega, sign⟩, by omega, by omega⟩
    split at h <;> cases h
  · rintro ⟨⟨fraction, exponent, digits, sign⟩, low, high⟩
    have digitsOnly := whole.2 ⟨fraction, exponent⟩
    rw [quantity, ofDigits_eq_positional]
    by_cases negative : i < 0
    · obtain ⟨v, rfl⟩ : ∃ v : Nat, i = -v := ⟨i.natAbs, by omega⟩
      have value : positional 10 m.whole = v := by omega
      have nonzero : v ≠ 0 := by omega
      have fits : v ≤ pow2 63 := by omega
      have minus : m.negative = true := by rw [sign, decide_eq_true negative]
      simp [digitsOnly, minus, value, nonzero, fits]
    · obtain ⟨v, rfl⟩ : ∃ v : Nat, i = v := ⟨i.natAbs, by omega⟩
      have value : positional 10 m.whole = v := by omega
      have fits : v ≤ wordMax := by omega
      have plus : m.negative = false := by rw [sign, decide_eq_false negative]
      simp [digitsOnly, plus, value, fits]

/-! ### The numeral of an integer -/

/-- The numeral that is written for an integer. -/
def ofInt (i : Int) : Numeral where
  negative := decide (i < 0)
  whole := (Nat.toDigits 10 i.natAbs).map digitValue

/-- The decimal digits of a number stand for it. -/
theorem positional_toDigits (n : Nat) :
    positional 10 ((Nat.toDigits 10 n).map digitValue) = n := by
  rw [← ofDigits_eq_positional, ofDigits, List.foldl_map]
  exact Nat.ofDigitChars_eq_foldl.symm.trans Nat.ofDigitChars_ten_toDigits

theorem denotes_ofInt (i : Int) : (ofInt i).Denotes i :=
  ⟨rfl, rfl, positional_toDigits _, rfl⟩

/-- The digits of a positive number begin with no zero. -/
theorem toDigits_ne_zero_cons {n : Nat} (positive : 0 < n) (rest : List Nat) :
    (Nat.toDigits 10 n).map digitValue ≠ 0 :: rest := by
  induction n using Nat.strongRecOn generalizing rest with
  | ind n ih =>
    by_cases one : n < 10
    · have value : ∀ n < 10, digitValue n.digitChar = n := by decide
      rw [Nat.toDigits_of_lt_base one, List.map_singleton, value n one]
      intro same
      exact Nat.ne_of_gt positive (List.cons.inj same).1
    · rw [Nat.toDigits_of_base_le (by omega) (by omega), List.map_append]
      intro same
      cases leading : (Nat.toDigits 10 (n / 10)).map digitValue with
      | nil => exact Nat.toDigits_ne_nil (List.map_eq_nil_iff.1 leading)
      | cons d ds =>
        obtain rfl : d = 0 := (List.cons.inj (leading ▸ same)).1
        exact ih (n / 10) (by omega) (by omega) ds leading

/-- A number is written in its decimal digits. -/
theorem wholeWritten_toDigits (n : Nat) :
    WholeWritten ((Nat.toDigits 10 n).map digitValue) (Nat.toDigits 10 n) where
  digits := by
    refine digitsWritten_iff.2 ⟨fun c hc ↦ ?_, rfl⟩
    have digit := Nat.isDigit_of_mem_toDigits (by omega) (by omega) hc
    simpa [isDigit, Char.isDigit, Char.le_def] using digit
  nonempty := by simp [Nat.toDigits_ne_nil]
  leading d rest := by
    cases n with
    | zero =>
      intro same
      cases same
    | succ n => exact toDigits_ne_zero_cons n.succ_pos _

/-- The text of an integer is that of its numeral. -/
theorem written_ofInt (i : Int) : (ofInt i).Written (toString i).toList := by
  have body : (ofInt i).BodyWritten (Nat.toDigits 10 i.natAbs) := by
    simpa using BodyWritten.mk (n := ofInt i) (wholeWritten_toDigits _) .missing .missing
  rw [Int.toString_eq_repr, Int.repr_eq_if]
  split
  next positive =>
    have same : i.toNat = i.natAbs := by omega
    rw [same, Nat.repr_eq_ofList_toDigits, String.toList_ofList]
    exact .plain (decide_eq_false (by omega)) body
  next negative =>
    have same : (-i).toNat = i.natAbs := by omega
    rw [same, Nat.repr_eq_ofList_toDigits]
    simpa using Written.minus (decide_eq_true (by omega)) body

end Numeral

end FlatDecls.Json
