import DropTable.Scalar
/-!
# Rational scalars

The same algorithms without rounding, overflow or NaN.
-/

namespace DropTable

/-- Exact arithmetic. Only a whole exponent has an exact power; any other gives zero. -/
instance : Scalar Rat where
  zero := 0
  one := 1
  decidableLT := inferInstance
  decidableLE := inferInstance
  pow a b := if b.den = 1 then Rat.zpow a b.num else 0
  ofNat n := n
  floor x := x.floor.toNat
  isNaN _ := false
  isFinite _ := true

end DropTable
