import Mathlib.Algebra.Group.Nat.Defs
import Mathlib.Data.List.Forall2
import FlatDecls.Text.Digit

/-!
# Digits as they are written

Which characters are digits, and of which value, is said by tables (`DecimalDigit`, `HexDigit`), and
what a list of digits stands for by the place of each of them (`positional`). Grammars are stated in
these terms, apart from any reader. The readers of digits go by ranges of characters and from left
to right, and they come to the same (`decimalDigit_iff`, `hexDigit?_eq_some_iff`,
`ofDigits_eq_positional`).
-/

namespace FlatDecls.Text

variable {d : Nat} {c : Char}

/-! ### Single digits -/

/-- The decimal digits by value. -/
def decimalDigits : List Char := ['0', '1', '2', '3', '4', '5', '6', '7', '8', '9']

/-- The character is the decimal digit of this value. -/
def DecimalDigit (d : Nat) (c : Char) : Prop := decimalDigits[d]? = some c

/-- The character is the hexadecimal digit of this value, in either case. -/
def HexDigit (d : Nat) (c : Char) : Prop :=
  (decimalDigits ++ ['a', 'b', 'c', 'd', 'e', 'f'])[d]? = some c ∨
    (decimalDigits ++ ['A', 'B', 'C', 'D', 'E', 'F'])[d]? = some c

instance : Decidable (DecimalDigit d c) := inferInstanceAs (Decidable (_ = _))

instance : Decidable (HexDigit d c) := inferInstanceAs (Decidable (_ ∨ _))

/-- What holds of the characters with the numbers below 128 holds of all ASCII characters. -/
theorem forall_ascii {P : Char → Prop} (each : ∀ n < 128, P (Char.ofNat n)) :
    ∀ c : Char, c.toNat < 128 → P c := by
  intro c ascii
  have here := each c.toNat ascii
  rwa [Char.ofNat_toNat] at here

theorem toNat_le_of_le {c e : Char} (h : c ≤ e) : c.toNat ≤ e.toNat :=
  UInt32.le_iff_toNat_le.1 (Char.le_def.1 h)

/-- Only ASCII characters are read as digits. -/
theorem ascii_of_hexDigit? (h : hexDigit? c = some d) : c.toNat < 128 := by
  have below {e : Char} (last : c ≤ e) (ascii : e.toNat < 128) : c.toNat < 128 :=
    Nat.lt_of_le_of_lt (toNat_le_of_le last) ascii
  rw [hexDigit?] at h
  split at h
  next digit =>
    rw [isDigit, Bool.and_eq_true, decide_eq_true_eq, decide_eq_true_eq] at digit
    exact below digit.2 (by decide)
  split at h
  next lower =>
    rw [Bool.and_eq_true, decide_eq_true_eq, decide_eq_true_eq] at lower
    exact below lower.2 (by decide)
  split at h
  next upper =>
    rw [Bool.and_eq_true, decide_eq_true_eq, decide_eq_true_eq] at upper
    exact below upper.2 (by decide)
  next => cases h

/-- The decimal digits are the characters from zero to nine, each with its distance from zero. -/
theorem decimalDigit_iff : DecimalDigit d c ↔ isDigit c = true ∧ digitValue c = d := by
  constructor
  · intro h
    obtain ⟨small, rfl⟩ := List.getElem?_eq_some_iff.1 h
    have each : ∀ d (h : d < decimalDigits.length),
        isDigit decimalDigits[d] = true ∧ digitValue decimalDigits[d] = d := by decide
    exact each d small
  · rintro ⟨digit, rfl⟩
    have ascii : c.toNat < 128 := ascii_of_hexDigit? (by rw [hexDigit?, if_pos digit])
    have each : ∀ c : Char, c.toNat < 128 → isDigit c = true → DecimalDigit (digitValue c) c :=
      forall_ascii (by decide)
    exact each c ascii digit

/-- A character is read as a hexadecimal digit exactly if it is one. -/
theorem hexDigit?_eq_some_iff : hexDigit? c = some d ↔ HexDigit d c := by
  constructor
  · intro h
    have each : ∀ c : Char, c.toNat < 128 → ∀ d ∈ hexDigit? c, HexDigit d c :=
      forall_ascii (by decide)
    exact each c (ascii_of_hexDigit? h) d h
  · rintro (h | h)
    all_goals
      obtain ⟨small, rfl⟩ := List.getElem?_eq_some_iff.1 h
      clear h
      revert d
      decide

/-- The digits that are written are hexadecimal digits of their values. -/
theorem hexDigit_written {n : Nat} (h : n < 16) : HexDigit n (hexDigit n) :=
  hexDigit?_eq_some_iff.1 (hexDigit?_hexDigit h)

theorem HexDigit.lt (h : HexDigit d c) : d < 16 := by
  rcases h with h | h
  all_goals exact (List.getElem?_eq_some_iff.1 h).1

/-! ### Numbers -/

/-- The number that digits of a base stand for: each counts as often as the places behind it say. -/
def positional (base : Nat) : List Nat → Nat
  | [] => 0
  | d :: ds => d * base ^ ds.length + positional base ds

/-- Taking the digits from left to right, with one place more each time, gives their number. -/
theorem ofDigits_eq_positional (base : Nat) (ds : List Nat) :
    ofDigits base ds = positional base ds := by
  have shifted (n : Nat) : ds.foldl (fun n d ↦ base * n + d) n =
      n * base ^ ds.length + positional base ds := by
    induction ds generalizing n with
    | nil => simp [positional]
    | cons d ds ih =>
      rw [List.foldl_cons, ih, positional, List.length_cons, Nat.pow_succ, Nat.add_mul,
        Nat.add_assoc, Nat.mul_comm base n, Nat.mul_assoc, Nat.mul_comm base]
  rw [ofDigits, shifted, Nat.zero_mul, Nat.zero_add]

/-- Hexadecimal digits stand for a number that takes no more of them. -/
theorem positional_lt_of_hexDigits {ds : List Nat} {cs : List Char}
    (h : List.Forall₂ HexDigit ds cs) : positional 16 ds < 16 ^ ds.length := by
  induction h with
  | nil => exact Nat.one_pos
  | @cons d c ds cs first _ ih =>
    have room : (d + 1) * 16 ^ ds.length ≤ 16 * 16 ^ ds.length :=
      Nat.mul_le_mul_right _ first.lt
    rw [Nat.add_mul, Nat.one_mul] at room
    rw [positional, List.length_cons, Nat.pow_succ, Nat.mul_comm _ 16]
    omega

end FlatDecls.Text
