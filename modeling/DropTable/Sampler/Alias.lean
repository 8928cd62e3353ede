import DropTable.Random
import DropTable.Sampler.Draw
/-!
# Alias buckets

A sampler with one bucket of equal size for each index. An index whose share is less than a bucket
fills a part of its own bucket, and the rest of the bucket goes to an index with more than enough.
A draw falls into a bucket and, with what is left of it, on one side of the bucket's division.
-/

namespace DropTable

/-- A bucket gives a share to its own index and the rest to another. -/
structure Bucket (α : Type) where
  share : α
  other : Nat
deriving DecidableEq, Repr

/-- The state while buckets are filled: what is left of each share, the buckets so far, and the
indices still open, those with less than a bucket apart from the others. The latest open index comes
first. -/
structure Pairing (α : Type) where
  shares : List α
  buckets : List (Bucket α)
  small : List Nat
  large : List Nat
deriving DecidableEq, Repr

namespace Pairing

variable {α : Type} [Scalar α]

def share (p : Pairing α) (index : Nat) : α :=
  p.shares.getD index 0

/-- Every bucket goes to its own index at first, and every index is open. -/
def start (shares : List α) : Pairing α :=
  let indices := (List.range shares.length).reverse
  { shares
    buckets := (List.range shares.length).map fun index => ⟨1, index⟩
    small := indices.filter fun index => shares.getD index 0 < 1
    large := indices.filter fun index => !decide (shares.getD index 0 < 1) }

/-- Closes the latest small index by filling its bucket from the latest large one, which stays open
with what it has left. -/
def step? (p : Pairing α) : Option (Pairing α) :=
  match p.small, p.large with
  | s :: small, l :: large =>
    let left := p.share l + p.share s - 1
    some
      { shares := p.shares.set l left
        buckets := p.buckets.set s ⟨p.share s, l⟩
        small := if left < 1 then l :: small else small
        large := if left < 1 then large else l :: large }
  | _, _ => none

/-- How many indices are open. -/
def openCount (p : Pairing α) : Nat :=
  p.small.length + p.large.length

theorem openCount_of_step? {p q : Pairing α} (h : p.step? = some q) :
    q.openCount + 1 = p.openCount := by
  unfold step? at h
  split at h
  · rename_i s small l large hs hl
    simp only [Option.some.injEq] at h
    subst h
    by_cases hleft : p.share l + p.share s - 1 < 1 <;>
      simp [openCount, hs, hl, hleft] <;> omega
  · simp at h

/-- Closes indices while there are small and large ones. -/
def run (p : Pairing α) : Pairing α :=
  match _h : p.step? with
  | some q => run q
  | none => p
termination_by p.openCount
decreasing_by
  have := openCount_of_step? ‹_›
  omega

end Pairing

structure Alias (α : Type) where
  weights : List α
  buckets : List (Bucket α)
  total : α
deriving DecidableEq, Repr

namespace Alias

variable {α : Type} [Scalar α]

/-- The index of the heaviest weight, the last of several. -/
def heaviest (weights : List α) : Nat :=
  weights.zipIdx.foldl
    (fun best (weight, index) => if weight < weights.getD best 0 then best else index) 0

/-- Buckets for effective weights with a positive total. An index that stays open has its bucket for
itself, except that a weight of zero that rounding has left open yields to the heaviest. -/
def fillBuckets (weights : List α) (total : α) : List (Bucket α) :=
  let shares := weights.map fun w => w * Scalar.ofNat weights.length / total
  let paired := (Pairing.start shares).run
  let stranded := paired.small.filter fun index => !decide (0 < weights.getD index 0)
  stranded.foldl (fun buckets index => buckets.set index ⟨0, heaviest weights⟩) paired.buckets

def ofWeights (weights : List α) : Alias α :=
  let effective := weights.map Draw.effective
  let total := Scalar.sum effective
  { weights := effective
    buckets := if 0 < total then fillBuckets effective total else []
    total }

def size (a : Alias α) : Nat :=
  a.weights.length

def weight? (a : Alias α) (index : Nat) : Option α :=
  a.weights[index]?

/-- The sum of the weights up to an index, which is the total past the end. -/
def sumTo (a : Alias α) (index : Nat) : α :=
  Scalar.sum (a.weights.take (index + 1))

/-- Decides between the two indices of a bucket. The part of the coin beyond the decision is the
residual. -/
def toss (a : Alias α) (bucket : Nat) (coin : α) : Pick α :=
  let ⟨share, other⟩ := a.buckets.getD bucket ⟨1, bucket⟩
  if coin < share then ⟨bucket, Draw.clampResidual (coin / share)⟩
  else if share < 1 then ⟨other, Draw.clampResidual ((coin - share) / (1 - share))⟩
  else ⟨other, 0⟩

/-- Whether a draw can select anything. -/
def answers (a : Alias α) (draw : α) : Bool :=
  !a.buckets.isEmpty && !Scalar.isNaN draw

/-- The draw alone decides on the bucket, and what is left of it is the coin. -/
def pick? (a : Alias α) (draw : α) : Option (Pick α) :=
  if a.answers draw then
    let scaled := Scalar.clamp 0 1 draw * Scalar.ofNat a.buckets.length
    let bucket := min (Scalar.floor scaled) (a.buckets.length - 1)
    some (a.toss bucket (scaled - Scalar.ofNat bucket))
  else none

/-- Random words decide on the bucket, and the draw is the coin. -/
def pickWith (a : Alias α) (draw : α) (words : Words) : Option (Pick α) × Words :=
  if a.answers draw then
    let (bucket, words) := words.below a.buckets.length
    (some (a.toss bucket (Scalar.clamp 0 1 draw)), words)
  else (none, words)

end Alias

end DropTable
