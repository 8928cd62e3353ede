import DropTable.Sampler.Draw
/-!
# Running sums

A sampler that keeps the sum of the weights up to each index. A draw selects the first index whose
sum reaches the target.
-/

namespace DropTable

structure Cumulative (α : Type) where
  weights : List α
  sums : List α
deriving DecidableEq, Repr

namespace Cumulative

variable {α : Type} [Scalar α]

/-- The sums of the weights up to each position, on top of what comes before. -/
def runningSums (before : α) : List α → List α
  | [] => []
  | w :: rest => (before + w) :: runningSums (before + w) rest

def ofWeights (weights : List α) : Cumulative α :=
  let effective := weights.map Draw.effective
  ⟨effective, runningSums 0 effective⟩

def size (c : Cumulative α) : Nat :=
  c.weights.length

def weight? (c : Cumulative α) (index : Nat) : Option α :=
  c.weights[index]?

def total (c : Cumulative α) : α :=
  c.sums.getLast?.getD 0

/-- The sum of the weights up to an index, which is the total past the end. -/
def sumTo (c : Cumulative α) (index : Nat) : α :=
  c.sums[index]?.getD c.total

/-- Replaces a weight. The sums before it stay, and the others are formed anew from there. -/
def update (c : Cumulative α) (index : Nat) (weight : α) : Cumulative α :=
  if index < c.size then
    let weights := c.weights.set index (Draw.effective weight)
    let kept := c.sums.take index
    ⟨weights, kept ++ runningSums (kept.getLast?.getD 0) (weights.drop index)⟩
  else c

def select? (c : Cumulative α) (draw : α) : Option Nat :=
  (Draw.target? draw c.total).map fun target =>
    min (c.sums.takeWhile (· < target)).length (c.sums.length - 1)

end Cumulative

end DropTable
