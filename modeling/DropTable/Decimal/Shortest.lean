import DropTable.Decimal
/-!
# Shortest decimals

The fewest digits that still identify a binary number. A binary number owns an interval: the reals
that are nearer to it than to its neighbours. On a decimal grid `10 ^ e` only the two grid points
around the number can lie in that interval without a coarser grid having one already, so the grids
are tried from coarse to fine and the first hit is the shortest decimal.
-/

namespace DropTable.Decimal

/-- The positive number `significand * 2 ^ exponent`. Its lower neighbour is at half the usual
distance when `narrow` holds, as it is for the least significand of a binade. -/
structure Binary where
  significand : Nat
  exponent : Int
  narrow : Bool
deriving DecidableEq, Repr

/-- A binary number and the ends of its interval over a common denominator. -/
structure Interval where
  low : Nat
  value : Nat
  high : Nat
  denominator : Nat
deriving DecidableEq, Repr

/-- The same interval measured in a grid: its numbers become counts of `1 / denominator` grid
steps. -/
def Interval.onGrid (i : Interval) : Int → Interval
  | .ofNat n => { i with denominator := i.denominator * Nat.pow 10 n }
  | .negSucc n =>
    let factor := Nat.pow 10 (n + 1)
    { i with low := i.low * factor, value := i.value * factor, high := i.high * factor }

namespace Binary

/-- The ends of the interval belong to it when the significand is even, since a number halfway
between two neighbours is rounded to the even one. -/
def closed (b : Binary) : Bool :=
  b.significand % 2 == 0

/-- The interval of a binary number. A quarter of the distance to the upper neighbour is the unit
in which both ends are whole. -/
def interval (b : Binary) : Interval :=
  let middle := 4 * b.significand
  let low := middle - if b.narrow then 1 else 2
  match b.exponent - 2 with
  | .ofNat n => ⟨low <<< n, middle <<< n, (middle + 2) <<< n, 1⟩
  | .negSucc n => ⟨low, middle, middle + 2, 1 <<< (n + 1)⟩

/-- The decimal on the grid `10 ^ exponent` that identifies the number: the nearer of the two grid
points around it that lie in its interval, the upper one when both are equally near. -/
def onGrid? (b : Binary) (exponent : Int) : Option Decimal :=
  let i := b.interval.onGrid exponent
  let step := i.denominator
  let below := i.value / step
  let hit (point : Nat) : Bool :=
    if b.closed then i.low ≤ point && point ≤ i.high else i.low < point && point < i.high
  let belowHits := hit (below * step)
  if hit ((below + 1) * step) && (!belowHits || step ≤ 2 * (i.value - below * step)) then
    some ⟨below + 1, exponent⟩
  else if belowHits then some ⟨below, exponent⟩
  else none

/-- An exponent of ten above the whole interval. -/
def coarsestGrid (b : Binary) : Int :=
  (b.significand.log2 + b.exponent + 1) * 30103 / 100000 + 2

/-- The number written out in full. -/
def exact (b : Binary) : Decimal :=
  match b.exponent with
  | .ofNat n => ⟨b.significand <<< n, 0⟩
  | .negSucc n => ⟨b.significand * Nat.pow 5 (n + 1), .negSucc n⟩

/-- The shortest decimal in the interval of the number, and the nearest of these. Seventeen digits
always suffice for a 53-bit significand. -/
def shortest (b : Binary) : Decimal :=
  ((List.range 24).findSome? fun (i : Nat) => b.onGrid? (b.coarsestGrid - i)).getD b.exact

end Binary

end DropTable.Decimal
