/-!
# Powers of two and ten

The scales of binary and decimal numbers.
-/

namespace FlatDecls.Decimal

/-- A power of two. -/
def pow2 (k : Nat) : Nat := Nat.pow 2 k

/-- A power of ten. -/
def pow10 (k : Nat) : Nat := Nat.pow 10 k

end FlatDecls.Decimal
