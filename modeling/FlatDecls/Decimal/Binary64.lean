import FlatDecls.Decimal.Power

/-!
# Double precision magnitudes

The magnitude of a finite IEEE double is `mantissa · 2 ^ exponent` with a mantissa below
`2 ^ 53` and an exponent of at least `-1074`; a mantissa below `2 ^ 52` occurs only at the
least exponent. A quotient of natural numbers is rounded to the nearest such magnitude, ties
going to the even mantissa, in exact integer arithmetic. Signs are kept by the callers.
-/

namespace FlatDecls.Decimal

/-- The magnitude `mantissa · 2 ^ exponent` of a finite double. -/
structure Binary64 where
  mantissa : Nat
  exponent : Int
  deriving DecidableEq, Repr

namespace Binary64

/-- Zero, at the least exponent. -/
def zero : Binary64 := ⟨0, -1074⟩

/-- Is this magnitude zero? -/
def isZero (x : Binary64) : Bool := x.mantissa == 0

/-- The quotient of two natural numbers, rounded to the nearest integer, ties to even. -/
def roundDiv (num den : Nat) : Nat :=
  let q := num / den
  let r := num % den
  if 2 * r < den then q
  else if den < 2 * r then q + 1
  else q + q % 2

/-- The greatest `k` with `2 ^ k ≤ num / den`, for positive `num` and `den`. -/
def floorLog2 (num den : Nat) : Int :=
  let k : Int := (num.log2 : Int) - (den.log2 : Int)
  if den * pow2 k.toNat ≤ num * pow2 (-k).toNat then k else k - 1

/-- The double nearest to `num / den`, or `none` when that lies beyond the largest one. -/
def ofRatio (num den : Nat) : Option Binary64 :=
  if num = 0 then some zero
  else
    let e := max (floorLog2 num den - 52) (-1074)
    let m := roundDiv (num * pow2 (-e).toNat) (den * pow2 e.toNat)
    let x : Binary64 := if m = pow2 53 then ⟨pow2 52, e + 1⟩ else ⟨m, e⟩
    if x.exponent ≤ 971 then some x else none

/-- The numerator of a magnitude over a power of two. -/
def num (x : Binary64) : Nat := x.mantissa * pow2 x.exponent.toNat

/-- The power of two under `num`. -/
def den (x : Binary64) : Nat := pow2 (-x.exponent).toNat

/-- The product of two magnitudes, rounded. -/
def mul (x y : Binary64) : Option Binary64 :=
  ofRatio (x.num * y.num) (x.den * y.den)

/-- The quotient of two magnitudes, rounded. -/
def div (x y : Binary64) : Option Binary64 :=
  ofRatio (x.num * y.den) (x.den * y.num)

end Binary64

end FlatDecls.Decimal
