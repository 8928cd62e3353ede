import DropTable.Sampler.Draw
/-!
# Binary indexed trees

A sampler that keeps sums over blocks of weights. Node `n`, counted from one, holds the sum of the
last `lowBit n` weights up to position `n`. A weight lies in the nodes that a climb from its
position meets, and the sum up to a position is spread over the nodes that a descent meets.
-/

namespace DropTable

/-- The largest power of two that divides a positive number. -/
def lowBit (n : Nat) : Nat :=
  if n = 0 then 0
  else if n % 2 = 1 then 1
  else 2 * lowBit (n / 2)
termination_by n

theorem lowBit_pos {n : Nat} (h : 0 < n) : 0 < lowBit n := by
  fun_induction lowBit n with
  | case1 => omega
  | case2 => omega
  | case3 n _ _ ih =>
      have := ih (by omega)
      omega

theorem lowBit_le (n : Nat) : lowBit n ≤ n := by
  fun_induction lowBit n <;> omega

namespace Fenwick

/-- The nodes from a given one upwards whose blocks contain the last position of its block. -/
def climb (size node : Nat) : List Nat :=
  if 0 < node ∧ node ≤ size then node :: climb size (node + lowBit node) else []
termination_by size + 1 - node
decreasing_by
  rename_i h
  have := lowBit_pos h.1
  omega

/-- The nodes whose blocks together make up the positions up to a node. -/
def descend (node : Nat) : List Nat :=
  if 0 < node then node :: descend (node - lowBit node) else []
termination_by node
decreasing_by
  rename_i h
  have := lowBit_pos h
  omega

/-- Halves `[low, high]` down to one number: left of the middle where the middle reaches far enough,
and right of it elsewhere. -/
def search (reaches : Nat → Bool) (low high : Nat) : Nat :=
  if low < high then
    let middle := (low + high) / 2
    if reaches middle then search reaches low middle else search reaches (middle + 1) high
  else low
termination_by high - low

end Fenwick

/-- The effective weights and the nodes of the tree over them, the first node at the head. -/
structure Fenwick (α : Type) where
  weights : List α
  nodes : List α
deriving DecidableEq, Repr

namespace Fenwick

variable {α : Type} [Scalar α]

def size (f : Fenwick α) : Nat :=
  f.weights.length

def weight? (f : Fenwick α) (index : Nat) : Option α :=
  f.weights[index]?

/-- Adds to all nodes whose blocks contain an index. -/
def add (nodes : List α) (index : Nat) (delta : α) : List α :=
  (climb nodes.length (index + 1)).foldl
    (fun nodes node => nodes.modify (node - 1) (· + delta)) nodes

/-- The sum of the weights up to an index, which is the total past the end. -/
def sumTo (f : Fenwick α) (index : Nat) : α :=
  (descend (min (index + 1) f.size)).foldl (fun sum node => sum + f.nodes.getD (node - 1) 0) 0

def total (f : Fenwick α) : α :=
  if f.size = 0 then 0 else f.sumTo (f.size - 1)

/-- Replaces a weight by adding the difference. -/
def update (f : Fenwick α) (index : Nat) (weight : α) : Fenwick α :=
  match f.weights[index]? with
  | some current =>
    let effective := Draw.effective weight
    ⟨f.weights.set index effective, add f.nodes index (effective - current)⟩
  | none => f

/-- The tree over a number of zero weights. -/
def zeros (size : Nat) : Fenwick α :=
  ⟨List.replicate size 0, List.replicate size 0⟩

def ofWeights (weights : List α) : Fenwick α :=
  weights.zipIdx.foldl (fun f (weight, index) => f.update index weight) (zeros weights.length)

def select? (f : Fenwick α) (draw : α) : Option Nat :=
  (Draw.target? draw f.total).map fun target =>
    search (fun index => target ≤ f.sumTo index) 0 (f.size - 1)

end Fenwick

end DropTable
