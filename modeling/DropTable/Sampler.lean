import DropTable.Sampler.Alias
import DropTable.Sampler.Cumulative
import DropTable.Sampler.Fenwick
/-!
# Samplers

A sampler turns a draw between zero and one into an index, each with a probability in proportion to
its weight. There are three ways to do so behind one interface.
-/

namespace DropTable

inductive Strategy where
  | cumulative
  | fenwick
  | aliasBuckets
deriving DecidableEq, Repr

namespace Strategy

instance : Inhabited Strategy :=
  ⟨.fenwick⟩

def name : Strategy → String
  | .cumulative => "cumulative"
  | .fenwick => "fenwick"
  | .aliasBuckets => "alias"

end Strategy

inductive Sampler (α : Type) where
  | cumulative (sums : Cumulative α)
  | fenwick (tree : Fenwick α)
  | aliasBuckets (buckets : Alias α)
deriving DecidableEq, Repr

namespace Sampler

variable {α : Type} [Scalar α]

def build : Strategy → List α → Sampler α
  | .cumulative, weights => .cumulative (.ofWeights weights)
  | .fenwick, weights => .fenwick (.ofWeights weights)
  | .aliasBuckets, weights => .aliasBuckets (.ofWeights weights)

def size : Sampler α → Nat
  | .cumulative c => c.size
  | .fenwick f => f.size
  | .aliasBuckets a => a.size

def isEmpty (s : Sampler α) : Bool :=
  s.size == 0

/-- The effective weight of an index. -/
def weight? : Sampler α → Nat → Option α
  | .cumulative c => c.weight?
  | .fenwick f => f.weight?
  | .aliasBuckets a => a.weight?

def total : Sampler α → α
  | .cumulative c => c.total
  | .fenwick f => f.total
  | .aliasBuckets a => a.total

/-- The sum of the effective weights up to an index. -/
def sumTo : Sampler α → Nat → α
  | .cumulative c => c.sumTo
  | .fenwick f => f.sumTo
  | .aliasBuckets a => a.sumTo

/-- Buckets are filled once and for all. -/
def supportsUpdate : Sampler α → Bool
  | .cumulative _ | .fenwick _ => true
  | .aliasBuckets _ => false

/-- Replaces the weight of an index. Nothing happens past the end, or without support. -/
def update : Sampler α → Nat → α → Sampler α
  | .cumulative c, index, weight => .cumulative (c.update index weight)
  | .fenwick f, index, weight => .fenwick (f.update index weight)
  | .aliasBuckets a, _, _ => .aliasBuckets a

/-- The index that a draw selects. -/
def select? (s : Sampler α) (draw : α) : Option Nat :=
  match s with
  | .cumulative c => c.select? draw
  | .fenwick f => f.select? draw
  | .aliasBuckets a => (a.pick? draw).map Pick.index

/-- The index that a draw selects, with the residual of the draw. -/
def pick? (s : Sampler α) (draw : α) : Option (Pick α) :=
  match s with
  | .aliasBuckets a => a.pick? draw
  | _ => (s.select? draw).map fun index => ⟨index, Draw.residual s.total s.sumTo index draw⟩

/-- The same with a source of words, which buckets alone make use of. -/
def pickWith (s : Sampler α) (draw : α) (words : Words) : Option (Pick α) × Words :=
  match s with
  | .aliasBuckets a => a.pickWith draw words
  | _ => (s.pick? draw, words)

def selectWith (s : Sampler α) (draw : α) (words : Words) : Option Nat × Words :=
  match s with
  | .aliasBuckets a =>
    let (pick, words) := a.pickWith draw words
    (pick.map Pick.index, words)
  | _ => (s.select? draw, words)

end Sampler

end DropTable
