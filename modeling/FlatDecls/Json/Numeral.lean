import FlatDecls.Decimal.Layout
import FlatDecls.Found
import FlatDecls.Text.Digit

/-!
# Numerals

A JSON number as written: sign, digits, fraction, exponent. Without fraction and exponent it
is an integer if it fits into 64 bits, unsigned or with a minus sign signed; `-0` and all
other numbers stand for doubles. The double is found in two roundings: first the leading
digits that fit into 64 unsigned bits, then their product with the power of ten that remains.
A number beyond the largest double has no value.
-/

namespace FlatDecls.Json

open Decimal
open Text (ofDigits)

/-- A number as written. The exponent carries its sign (`true` for minus) and its digits. -/
structure Numeral where
  negative : Bool
  whole : List Nat
  fraction : List Nat := []
  exponent : Option (Bool × List Nat) := none
  deriving DecidableEq, Repr

/-- What a numeral stands for. -/
inductive Quantity
  | integer (n : Int)
  | double (negative : Bool) (magnitude : Binary64)
  | outOfRange
  deriving DecidableEq, Repr

namespace Numeral

/-- The largest unsigned 64-bit number. -/
def wordMax : Nat := pow2 64 - 1

/-- Leading digits as a 64-bit number, with the power of ten that they stand before. Once a
digit did not fit, `closed` is set and no later digit of the same run counts. -/
structure Leading where
  significand : Nat := 0
  shift : Int := 0
  closed : Bool := false

/-- A digit before the point: one that does not fit raises the power of ten. -/
def Leading.pushWhole (l : Leading) (d : Nat) : Leading :=
  if !l.closed && 10 * l.significand + d ≤ wordMax then
    { l with significand := 10 * l.significand + d }
  else { l with shift := l.shift + 1, closed := true }

/-- A digit after the point: one that fits lowers the power of ten, others are dropped. -/
def Leading.pushFraction (l : Leading) (d : Nat) : Leading :=
  if !l.closed && 10 * l.significand + d ≤ wordMax then
    { l with significand := 10 * l.significand + d, shift := l.shift - 1 }
  else { l with closed := true }

/-- The leading digits of a numeral, before its exponent is applied. -/
def leading (n : Numeral) : Leading :=
  n.fraction.foldl Leading.pushFraction
    { n.whole.foldl Leading.pushWhole {} with closed := false }

/-- The greatest power of ten that is a double. -/
def topPower : Nat := 308

/-- The double nearest to `10 ^ e`. -/
def powerOfTen (e : Nat) : Option Binary64 :=
  Binary64.ofRatio (pow10 e) 1

/-- A magnitude divided by `10 ^ e` in one rounding. -/
def lowerOnce (x : Binary64) (e : Nat) : Option Binary64 :=
  (powerOfTen e).bind x.div

/-- A 64-bit magnitude divided by `10 ^ e`, in steps of at most `topPower` places with a
rounding each. After two full steps nothing is left of it. -/
def lower (x : Binary64) (e : Nat) : Option Binary64 :=
  if e ≤ topPower then lowerOnce x e
  else if e ≤ 2 * topPower then (lowerOnce x topPower).bind (lowerOnce · (e - topPower))
  else some Binary64.zero

/-- A magnitude times `10 ^ e`; `none` beyond the largest double. -/
def scale (x : Binary64) (e : Int) : Option Binary64 :=
  if e < 0 then lower x e.natAbs
  else if x.isZero then some x
  else if e ≤ topPower then do x.mul (← powerOfTen e.natAbs)
  else none

/-- The greatest exponent that is read as a number; a larger one makes everything but zero
vanish or overflow. -/
def exponentMax : Nat := pow2 31 - 1

/-- The double that a numeral with a fraction, an exponent or too many digits stands for. -/
def magnitude (n : Numeral) : Option Binary64 := do
  let l := n.leading
  match n.exponent with
  | none => scale (← Binary64.ofRatio l.significand 1) l.shift
  | some (down, ds) =>
    let e := ofDigits 10 ds
    if exponentMax < e then
      if l.significand = 0 || down then some Binary64.zero else none
    else
      scale (← Binary64.ofRatio l.significand 1) (if down then l.shift - e else l.shift + e)

/-- Does the numeral consist of a sign and digits only? -/
def isWhole (n : Numeral) : Bool :=
  n.fraction.isEmpty && n.exponent.isNone

/-- What the numeral stands for. -/
def quantity (n : Numeral) : Quantity :=
  let v := ofDigits 10 n.whole
  if n.isWhole && !n.negative && v ≤ wordMax then .integer v
  else if n.isWhole && n.negative && v ≠ 0 && v ≤ pow2 63 then .integer (-v)
  else
    match n.magnitude with
    | some x => .double n.negative x
    | none => .outOfRange

end Numeral

/-- Doubles are shown positionally from `1e-5` up to below `1e16`, and otherwise with an
exponent. -/
def numberLayout : Layout where
  lowestPositional := some (-5)
  highestPositional := some 15

/-- What a report shows of a number; nothing for one without a value. -/
def Quantity.found? : Quantity → Option Found
  | .integer n => some (.integer n)
  | .double negative x => some (.floating (numberLayout.writeDouble negative x))
  | .outOfRange => none

end FlatDecls.Json
