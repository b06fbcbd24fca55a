import FlatDecls.Decimal.Shortest

/-!
# Layouts of decimals

The same digits can be laid out positionally (`0.001`, `1000.0`) or with an exponent
(`1e+20`). A `Layout` says for which decimal exponents the positional form is used and which
of two equally near decimals is written. A positional number always shows a digit after the
point, and an exponent always its sign.
-/

namespace FlatDecls.Decimal

/-- How a decimal is written. A missing bound leaves that side of the positional range open. -/
structure Layout where
  lowestPositional : Option Int := none
  highestPositional : Option Int := none
  tie : Tie := .toEven

namespace Layout

/-- Are numbers with this decimal exponent written positionally? -/
def isPositional (l : Layout) (e : Int) : Bool :=
  l.lowestPositional.all (· ≤ e) && l.highestPositional.all (e ≤ ·)

/-- A positional number: the point stands where the exponent puts it. -/
def positional (d : Scaled) : String :=
  let ds := (toString d.digits).toList
  let places := (-d.exponent).toNat
  if 0 ≤ d.exponent then
    String.ofList ds ++ "".pushn '0' d.exponent.toNat ++ ".0"
  else if places < ds.length then
    String.ofList (ds.take (ds.length - places)) ++ "."
      ++ String.ofList (ds.drop (ds.length - places))
  else
    "0." ++ "".pushn '0' (places - ds.length) ++ String.ofList ds

/-- One digit, the others after a point, and the decimal exponent `e`. -/
def scientific (d : Scaled) (e : Int) : String :=
  let ds := (toString d.digits).toList
  let fraction := if ds.length ≤ 1 then "" else "." ++ String.ofList (ds.drop 1)
  let sign := if e < 0 then "-" else "+"
  String.ofList (ds.take 1) ++ fraction ++ "e" ++ sign ++ toString e.natAbs

/-- A decimal in the given layout. -/
def write (l : Layout) (d : Scaled) : String :=
  let e := d.exponent + (toString d.digits).length - 1
  if l.isPositional e then positional d else scientific d e

/-- A signed double in the given layout. -/
def writeDouble (l : Layout) (negative : Bool) (x : Binary64) : String :=
  (if negative then "-" else "") ++ l.write (x.shortest l.tie)

end Layout

end FlatDecls.Decimal
