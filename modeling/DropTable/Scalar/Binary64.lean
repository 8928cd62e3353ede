import DropTable.Scalar
/-!
# Binary64 scalars
-/

namespace DropTable

/-- Weights run in binary64. A count is read to the nearest double, and the whole part of a double
that is too large for a 64-bit word is the largest word. -/
instance : Scalar Float where
  decidableLT := inferInstance
  decidableLE := inferInstance
  pow := Float.pow
  ofNat := Float.ofNat
  floor x := x.toUInt64.toNat
  isNaN := Float.isNaN
  isFinite := Float.isFinite

end DropTable
