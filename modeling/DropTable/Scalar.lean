/-!
# Scalars

The arithmetic in which weights, draws and formulas are computed. Nothing below fixes a number
format: binary64 runs, exact rationals serve to say what the algorithms compute without rounding.
-/

namespace DropTable

/-- Arithmetic with an order that can be tested. No law is assumed: in binary64 addition rounds,
and a NaN compares with nothing. -/
class Scalar (α : Type) extends
    Zero α, One α, Add α, Sub α, Mul α, Div α, Neg α, LT α, LE α where
  decidableLT : DecidableLT α
  decidableLE : DecidableLE α
  pow : α → α → α
  ofNat : Nat → α
  /-- The whole part of a scalar that is not negative. -/
  floor : α → Nat
  isNaN : α → Bool
  isFinite : α → Bool

attribute [reducible, instance] Scalar.decidableLT Scalar.decidableLE

namespace Scalar

variable {α : Type} [Scalar α]

/-- Moves a scalar to the nearer end of `[low, high]` when it lies outside. A NaN stays, and so does
a negative zero at a lower end of zero. -/
def clamp (low high x : α) : α :=
  let raised := if x < low then low else x
  if high < raised then high else raised

/-- Numeric equality: both zeros are equal, and a NaN differs from itself. -/
def numericallyEqual (a b : α) : Bool :=
  decide (a ≤ b) && decide (b ≤ a)

/-- The largest draw below one: `1 - 2⁻⁵³`. -/
def lastDraw : α :=
  1 - 1 / ofNat 0x20000000000000

/-- The sum that starts from negative zero, so that a sum over nothing keeps that sign. -/
def sum (xs : List α) : α :=
  xs.foldl (· + ·) (-0)

end Scalar

end DropTable
