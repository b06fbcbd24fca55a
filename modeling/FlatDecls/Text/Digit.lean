/-!
# Digits

Digits of bases up to sixteen as characters. Letters count from ten on and are read in either case
and written in lower case, so every digit that is written reads back; and so does every number that
is written in decimal digits.
-/

namespace FlatDecls.Text

/-- Is this one of the ten decimal digits? -/
def isDigit (c : Char) : Bool := '0' ≤ c && c ≤ '9'

/-- The value of a decimal digit. -/
def digitValue (c : Char) : Nat := c.toNat - '0'.toNat

/-- The value of a hexadecimal digit of either case. -/
def hexDigit? (c : Char) : Option Nat :=
  if isDigit c then some (digitValue c)
  else if 'a' ≤ c && c ≤ 'f' then some (c.toNat - 'a'.toNat + 10)
  else if 'A' ≤ c && c ≤ 'F' then some (c.toNat - 'A'.toNat + 10)
  else none

/-- The value of a digit in a base of up to sixteen, if the base has the digit. -/
def digit? (base : Nat) (c : Char) : Option Nat := (hexDigit? c).filter (· < base)

/-- The value of a list of digits, the highest first. -/
def ofDigits (base : Nat) (ds : List Nat) : Nat := ds.foldl (fun n d ↦ base * n + d) 0

/-- A digit of a lower-case hexadecimal number. -/
def hexDigit (n : Nat) : Char :=
  if n < 10 then Char.ofNat ('0'.toNat + n) else Char.ofNat ('a'.toNat + (n - 10))

/-- A hexadecimal digit that is written reads back. -/
@[simp]
theorem hexDigit?_hexDigit {n : Nat} (h : n < 16) : hexDigit? (hexDigit n) = some n := by
  have each : ∀ n < 16, hexDigit? (hexDigit n) = some n := by decide
  exact each n h

/-- Numbers that are written in the same decimal digits are the same. -/
theorem toDigits_injective {m n : Nat} (h : Nat.toDigits 10 m = Nat.toDigits 10 n) : m = n := by
  rw [← Nat.ofDigitChars_ten_toDigits (n := m), h, Nat.ofDigitChars_ten_toDigits]

end FlatDecls.Text
