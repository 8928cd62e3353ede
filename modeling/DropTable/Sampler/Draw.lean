import DropTable.Scalar
/-!
# Draws and weights

What all samplers share: which weights count, where a draw lies in the total, and which part of a
draw is left over once an index is picked.
-/

namespace DropTable

/-- An index with the part of the draw that it leaves, a draw of its own. -/
structure Pick (α : Type) where
  index : Nat
  residual : α
deriving DecidableEq, Repr

namespace Draw

variable {α : Type} [Scalar α]

/-- A weight that is positive and finite counts, and any other counts as zero. -/
def effective (weight : α) : α :=
  if Scalar.isFinite weight && decide (0 < weight) then weight else 0

/-- The point of the total that a draw stands for. There is none for a NaN, or without a positive
total. -/
def target? (draw total : α) : Option α :=
  if !Scalar.isNaN draw && decide (0 < total) then some (Scalar.clamp 0 1 draw * total) else none

/-- A residual is a draw below one. -/
def clampResidual (residual : α) : α :=
  if Scalar.isNaN residual then 0 else Scalar.clamp 0 Scalar.lastDraw residual

/-- Where a draw lies in the share of an index, given the sums of the weights up to each index. -/
def residual (total : α) (sumTo : Nat → α) (index : Nat) (draw : α) : α :=
  let start := match index with
    | 0 => 0
    | previous + 1 => sumTo previous / total
  let stop := sumTo index / total
  if stop ≤ start then 0 else clampResidual ((draw - start) / (stop - start))

end Draw

end DropTable
