import DropTable.Numeral
import DropTable.Decimal.Shortest
/-!
# Binary64 numerals

A double is written with the fewest digits that read back to it, never with an exponent.
-/

namespace DropTable.Binary64

/-- The double nearest to a decimal. Decimals far beyond either end of the range are settled by
their size alone. -/
def ofDecimal (d : Decimal) : Float :=
  let magnitude := d.significand.repr.length + d.exponent
  if d.significand = 0 ∨ magnitude < -323 then 0.0
  else if 309 < magnitude then 1.0 / 0.0
  else Float.ofScientific d.significand (d.exponent < 0) d.exponent.natAbs

/-- The magnitude of a finite double that is not zero. -/
def magnitude (x : Float) : Decimal.Binary :=
  let bits := x.toBits.toNat
  let fraction := bits % (1 <<< 52)
  let exponent := (bits >>> 52) % (1 <<< 11)
  if exponent = 0 then ⟨fraction, -1074, false⟩
  else ⟨(1 <<< 52) + fraction, Int.ofNat exponent - 1075, fraction = 0 ∧ exponent ≠ 1⟩

def text (x : Float) : String :=
  let sign := if x.toBits.toNat < 1 <<< 63 then "" else "-"
  if x.isNaN then "NaN"
  else if x.isInf then sign ++ "inf"
  else if x == 0.0 then sign ++ "0"
  else sign ++ (magnitude x).shortest.positional

end DropTable.Binary64

namespace DropTable

instance : Numeral Float where
  ofDecimal := Binary64.ofDecimal
  text := Binary64.text

end DropTable
