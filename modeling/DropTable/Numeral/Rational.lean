import DropTable.Numeral
import DropTable.Scalar.Rational
/-!
# Rational numerals

Every decimal is a rational. Few rationals are decimals, so they are written as fractions.
-/

namespace DropTable

instance : Numeral Rat where
  ofDecimal d := d.significand * (10 : Rat) ^ d.exponent
  text q := toString q

end DropTable
