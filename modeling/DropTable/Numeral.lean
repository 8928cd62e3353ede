import DropTable.Decimal
/-!
# Numerals

Scalars that have a decimal text.
-/

namespace DropTable

class Numeral (α : Type) where
  /-- The scalar nearest to a decimal. -/
  ofDecimal : Decimal → α
  /-- The text that stands for a scalar in formulas, programs and messages. -/
  text : α → String

end DropTable
