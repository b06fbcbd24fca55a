import FlatDecls.Decimal.Power

/-!
# Integers of fixed width

Which integers have a binary form of so many bits, without a sign or with one in two's
complement.
-/

namespace FlatDecls

open Decimal (pow2)

/-- Does the integer fit into so many bits without a sign? -/
def fitsUnsigned (bits : Nat) (n : Int) : Bool := 0 ≤ n && n < pow2 bits

/-- Does the integer fit into so many bits of which one is the sign? -/
def fitsSigned (bits : Nat) (n : Int) : Bool := -pow2 (bits - 1) ≤ n && n < pow2 (bits - 1)

end FlatDecls
