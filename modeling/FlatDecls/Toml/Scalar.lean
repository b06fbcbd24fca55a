import FlatDecls.Text.Digit
import FlatDecls.Toml.Value
import FlatDecls.Word

/-!
# Unquoted values

Booleans, integers, floats, dates and times. The run of characters up to the next blank, bracket
or separator is taken first and then judged as a whole. Only between a date and a time of day
may a single space stand.

Integers are judged in two steps, and only the first belongs to the form of a document: it
passes some runs that begin like an integer but stand for none.
-/

namespace FlatDecls.Toml

open Decimal
open Text (isDigit digitValue digit? hexDigit? ofDigits)

/-! ### Digits -/

/-- Digits where single underscores may stand between two of them. `ready` says whether an
underscore may come next. -/
def digitsFrom (base : Nat) (ready : Bool) : List Char → Option (List Nat)
  | [] => if ready then some [] else none
  | '_' :: rest => if ready then digitsFrom base false rest else none
  | c :: rest => do
    let d ← digit? base c
    return d :: (← digitsFrom base true rest)

/-- At least one digit, with single underscores between digits. -/
def digits? (base : Nat) (cs : List Char) : Option (List Nat) := digitsFrom base false cs

/-- Decimal digits without a superfluous zero in front. -/
def plainDigits? (cs : List Char) : Option (List Nat) :=
  match digits? 10 cs with
  | some (0 :: _ :: _) => none
  | found => found

/-- A sign, if there is one (`true` for minus), and what follows it. -/
def splitSign : List Char → Option Bool × List Char
  | '+' :: rest => (some false, rest)
  | '-' :: rest => (some true, rest)
  | cs => (none, cs)

/-- The number of these digits behind a sign. -/
def signedNumber (sign : Option Bool) (ds : List Nat) : Int :=
  if sign == some true then -(ofDigits 10 ds : Int) else (ofDigits 10 ds : Int)

/-- The digits of an integer, or those before a point or exponent. An underscore may stand right
behind a sign, and zeros behind that. -/
def wholeDigits? (sign : Option Bool) (cs : List Char) : Option (List Nat) :=
  match cs with
  | '_' :: rest => if sign.isSome then digits? 10 rest else none
  | _ => plainDigits? cs

/-! ### Integers -/

/-- A decimal integer of any size, or one without sign in another base. -/
def integer? (cs : List Char) : Option Int :=
  match cs with
  | '0' :: 'x' :: rest => (digits? 16 rest).map fun ds ↦ (ofDigits 16 ds : Int)
  | '0' :: 'o' :: rest => (digits? 8 rest).map fun ds ↦ (ofDigits 8 ds : Int)
  | '0' :: 'b' :: rest => (digits? 2 rest).map fun ds ↦ (ofDigits 2 ds : Int)
  | _ =>
    let (sign, cs) := splitSign cs
    (wholeDigits? sign cs).map (signedNumber sign)

/-- Is this a hexadecimal digit? -/
def isHexDigit (c : Char) : Bool := (hexDigit? c).isSome

/-- Does each underscore stand between two hexadecimal digits? One may come first if `ready`. -/
def underscoresFit (ready : Bool) : List Char → Bool
  | [] => true
  | '_' :: rest => ready && rest.head?.any isHexDigit && underscoresFit false rest
  | c :: rest => underscoresFit (isHexDigit c) rest

/-- Is this a character that no integer has, but a float or a date with a time? -/
def isOtherMark (c : Char) : Bool := c = '.' || c = 'e' || c = 'E' || c = ' '

/-- Does this begin like an integer? So do a base without digits, and decimal digits with an
underscore and hexadecimal digits around each, whatever else follows the first one. -/
def beginsInteger (cs : List Char) : Bool :=
  match cs with
  | ['0', 'x'] | ['0', 'o'] | ['0', 'b'] => true
  | _ =>
    let (sign, cs) := splitSign cs
    let behind := cs.dropWhile isDigit
    cs.head? != some '0' && behind.head? == some '_' && !behind.any isOtherMark &&
      underscoresFit sign.isSome cs

/-! ### Floats -/

/-- The double nearest to `digits · 10 ^ shift`. A number of more than 310 places before the
point is beyond all doubles, and one whose first digit stands more than 330 places behind it
is below all but zero. -/
def nearest (digits : List Nat) (shift : Int) : Option Binary64 :=
  let n := ofDigits 10 digits
  let places := ((digits.dropWhile (· == 0)).length : Int) + shift
  if n = 0 || places < -330 then some Binary64.zero
  else if 310 < places then none
  else Binary64.ofRatio (n * pow10 shift.toNat) (pow10 (-shift).toNat)

/-- The exponent behind its letter. -/
def exponent? (cs : List Char) : Option Int :=
  let (sign, cs) := splitSign cs
  (digits? 10 cs).map (signedNumber sign)

/-- Is this the letter before an exponent? -/
def isExponentMark (c : Char) : Bool := c = 'e' || c = 'E'

/-- The digits behind a point, of which there must be one; without a point there are none. -/
def fraction? (cs : List Char) : Option (List Nat) :=
  match cs with
  | [] => some []
  | '.' :: rest => digits? 10 rest
  | _ => none

/-- The value of `digits · 10 ^ shift` with a sign. -/
def Value.ofDecimal (sign : Option Bool) (digits : List Nat) (shift : Int) : Value :=
  match nearest digits shift with
  | some x => .float (.finite (sign == some true) x)
  | none => .noNumber

/-- A number with a fraction, an exponent, or both, whose sign has been read. -/
def decimal? (sign : Option Bool) (cs : List Char) : Option Value := do
  let mantissa := cs.takeWhile (!isExponentMark ·)
  let whole ← wholeDigits? sign (mantissa.takeWhile (· ≠ '.'))
  let fraction ← fraction? (mantissa.dropWhile (· ≠ '.'))
  match cs.dropWhile (!isExponentMark ·) with
  | [] =>
    if fraction.isEmpty then none
    else return .ofDecimal sign (whole ++ fraction) (-fraction.length)
  | _ :: rest => do
    return .ofDecimal sign (whole ++ fraction) ((← exponent? rest) - fraction.length)

/-- A float: a decimal or one of the special words, with an optional sign. -/
def float? (cs : List Char) : Option Value :=
  match splitSign cs with
  | (sign, ['i', 'n', 'f']) => some (.float (.infinite (sign == some true)))
  | (_, ['n', 'a', 'n']) => some (.float .notANumber)
  | (sign, rest) => decimal? sign rest

/-! ### Dates and times -/

/-- A number of exactly `width` decimal digits. -/
def fixed? (width : Nat) (cs : List Char) : Option (Nat × List Char) :=
  let ds := cs.take width
  if ds.length = width && ds.all isDigit then
    some (ofDigits 10 (ds.map digitValue), cs.drop width)
  else none

/-- The number of days of a month. -/
def daysIn (year month : Nat) : Nat :=
  let leap := year % 4 = 0 ∧ (year % 100 ≠ 0 ∨ year % 400 = 0)
  match month with
  | 2 => if leap then 29 else 28
  | 4 | 6 | 9 | 11 => 30
  | _ => 31

/-- What follows a date at the front. -/
def skipDate? (cs : List Char) : Option (List Char) := do
  let (year, cs) ← fixed? 4 cs
  let '-' :: cs := cs | none
  let (month, cs) ← fixed? 2 cs
  let '-' :: cs := cs | none
  let (day, cs) ← fixed? 2 cs
  if 1 ≤ month && month ≤ 12 && 1 ≤ day && day ≤ daysIn year month then some cs else none

/-- What follows the fraction of a second at the front, if there is one. -/
def skipSecondFraction? (cs : List Char) : Option (List Char) :=
  match cs with
  | '.' :: rest =>
    if (rest.takeWhile isDigit).isEmpty then none else some (rest.dropWhile isDigit)
  | _ => some cs

/-- What follows a time of day at the front. Seconds may be left out, and one second may be
added to a minute. -/
def skipTime? (cs : List Char) : Option (List Char) := do
  let (hour, cs) ← fixed? 2 cs
  let ':' :: cs := cs | none
  let (minute, cs) ← fixed? 2 cs
  if 23 < hour || 59 < minute then none
  else
    match cs with
    | ':' :: cs => do
      let (second, cs) ← fixed? 2 cs
      if 60 < second then none else skipSecondFraction? cs
    | _ => some cs

/-- Is this an offset from universal time? None at all is one. -/
def isOffset (cs : List Char) : Bool :=
  match cs with
  | [] => true
  | ['Z'] | ['z'] => true
  | '+' :: rest | '-' :: rest =>
    match fixed? 2 rest with
    | some (hour, ':' :: rest) =>
      match fixed? 2 rest with
      | some (minute, []) => hour ≤ 23 && minute ≤ 59
      | _ => false
    | _ => false
  | _ => false

/-- Is this a date, a time of day, or both with an optional offset? -/
def isDateTime (cs : List Char) : Bool :=
  match skipDate? cs with
  | some [] => true
  | some (c :: rest) => (c = 'T' || c = 't' || c = ' ') && (skipTime? rest).any isOffset
  | none => skipTime? cs == some []

/-! ### Runs -/

/-- The characters that end an unquoted value. -/
def separators : List Char :=
  ['=', ',', '[', ']', '\x7b', '\x7d', '#', ' ', '\t', '\r', '\n']

/-- Can this character be part of an unquoted value? -/
def isScalarChar (c : Char) : Bool := !separators.contains c

/-- What an unquoted value means as a whole. -/
def judge (cs : List Char) : Option Value :=
  match String.ofList cs with
  | "true" => some (.boolean true)
  | "false" => some (.boolean false)
  | _ =>
    match integer? cs with
    | some n => some (if fitsSigned 64 n then .integer n else .noNumber)
    | none =>
      match float? cs with
      | some v => some v
      | none =>
        if isDateTime cs then some .dateTime
        else if beginsInteger cs then some .noNumber
        else none

/-- The run of an unquoted value. A date is joined over one space with a digit behind it. -/
def takeRun (cs : List Char) : List Char × List Char :=
  let run := cs.takeWhile isScalarChar
  match cs.dropWhile isScalarChar with
  | ' ' :: c :: rest =>
    if skipDate? run == some [] && isDigit c then
      (run ++ ' ' :: (c :: rest).takeWhile isScalarChar, (c :: rest).dropWhile isScalarChar)
    else (run, ' ' :: c :: rest)
  | rest => (run, rest)

/-- The unquoted value at the front. -/
def scalar (cs : List Char) : Option (Value × List Char) :=
  let (run, rest) := takeRun cs
  (judge run).map fun v ↦ (v, rest)

theorem takeRun_length (cs : List Char) : (takeRun cs).2.length ≤ cs.length := by
  have hdrop := (List.dropWhile_suffix isScalarChar (l := cs)).length_le
  unfold takeRun
  split
  · next c rest hcs =>
    rw [hcs, List.length_cons] at hdrop
    have := (List.dropWhile_suffix isScalarChar (l := c :: rest)).length_le
    dsimp only
    split
    · exact Nat.le_trans this (Nat.le_of_lt hdrop)
    · exact hdrop
  · exact hdrop

theorem scalar_length {cs rest : List Char} {v : Value} (h : scalar cs = some (v, rest)) :
    rest.length ≤ cs.length := by
  have hrun := takeRun_length cs
  rcases hr : takeRun cs with ⟨run, left⟩
  rw [scalar, hr] at h
  obtain ⟨w, -, h⟩ := Option.map_eq_some_iff.1 h
  obtain ⟨-, rfl⟩ := Prod.mk.inj h
  rwa [hr] at hrun

end FlatDecls.Toml
