import FlatDecls.Decimal.Binary64

/-!
# The shortest decimal that reads back

A double stands for every real number that rounds to it: an interval around its value whose
ends belong to it exactly when the mantissa is even. Of the decimals in this interval those
with the fewest digits are taken, and of these the one nearest to the value; where two are
equally near, the writer of the number has to choose. They are found by going through ever
finer decimal grids: if any point of a grid lies in the interval, then so does one of the two
grid points next to the value.
-/

namespace FlatDecls.Decimal

/-- The decimal `digits · 10 ^ exponent`. -/
structure Scaled where
  digits : Nat
  exponent : Int
  deriving DecidableEq, Repr

/-- Which of two equally near decimals is taken. -/
inductive Tie
  /-- The one whose last digit is even. -/
  | toEven
  /-- The larger one. -/
  | up
  deriving DecidableEq, Repr

/-- The point taken halfway between `below` and the point after it. -/
def Tie.choose (below : Nat) : Tie → Nat
  | toEven => below + below % 2
  | up => below + 1

namespace Binary64

/-- How far the interval of a double reaches below its value, in units of
`2 ^ (exponent - 2)`. The gap below a power of two is half as wide as the gap above. -/
def reachBelow (x : Binary64) : Nat :=
  if x.mantissa = pow2 52 ∧ -1074 < x.exponent then 1 else 2

/-- The point next to the value of `x` on the grid `10 ^ g`, if it rounds to `x`. -/
def gridPoint? (x : Binary64) (tie : Tie) (g : Int) : Option Nat :=
  let point := pow10 g.toNat * pow2 (2 - x.exponent).toNat
  let unit := pow10 (-g).toNat * pow2 (x.exponent - 2).toNat
  let value := 4 * x.mantissa * unit
  let low := (4 * x.mantissa - x.reachBelow) * unit
  let high := (4 * x.mantissa + 2) * unit
  let closed := x.mantissa % 2 == 0
  let holds (c : Nat) : Bool :=
    0 < c && (if closed then low ≤ c * point && c * point ≤ high
      else low < c * point && c * point < high)
  let below := value / point
  let above := below + 1
  let nearBelow := value - below * point
  let nearAbove := above * point - value
  match holds below, holds above with
  | false, false => none
  | true, false => some below
  | false, true => some above
  | true, true =>
    if nearBelow < nearAbove then some below
    else if nearAbove < nearBelow then some above
    else some (tie.choose below)

/-- The first hit on at most `count` grids from `10 ^ g` on, each ten times finer. -/
def searchGrids (x : Binary64) (tie : Tie) : (count : Nat) → (g : Int) → Scaled
  | 0, g => ⟨(x.gridPoint? tie g).getD 0, g⟩
  | count + 1, g =>
    match x.gridPoint? tie g with
    | some c => ⟨c, g⟩
    | none => x.searchGrids tie count (g - 1)

/-- The shortest decimal that rounds to `x`, nearest to it among those of its length. The
search begins above the value: `x` is below `2 ^ (exponent + 54)`. -/
def shortest (x : Binary64) (tie : Tie) : Scaled :=
  if x.isZero then ⟨0, 0⟩
  else x.searchGrids tie 60 ((x.exponent + 54) * 30103 / 100000 + 1)

end Binary64

end FlatDecls.Decimal
