import DropTable.Proofs.Binary64.SignedZero
import DropTable.Proofs.Sampler.DoubleDraws
import DropTable.Proofs.Sampler.RunningSums
/-!
# Weights that a sampler holds already

An update that hands an index the weight it has changes nothing at all, even where earlier updates
have left a tree with nodes that are no longer the sums of the weights.  The difference that is
added to the nodes is exactly zero, because a weight that counts is finite, and zero changes no
node, because nodes start from zero and nothing that is added makes a negative zero of them.
-/

namespace DropTable

open Binary64

namespace Cumulative

variable {α : Type} [Scalar α]

theorem Summed.update_eq_self {c : Cumulative α} (h : c.Summed) {index : Nat} {weight : α}
    (hweight : c.weights[index]? = some (Draw.effective weight)) : c.update index weight = c := by
  have hweights : (c.update index weight).weights = c.weights := by
    obtain ⟨hindex, hget⟩ := List.getElem?_eq_some_iff.1 hweight
    rw [weights_update, ← hget, List.set_getElem_self]
  have hsums : (c.update index weight).sums = c.sums := by
    rw [h.update index weight, hweights, h]
  obtain ⟨weights, sums⟩ := c
  exact (mk.injEq ..).mpr ⟨hweights, hsums⟩

end Cumulative

namespace Fenwick

/-- No node is a negative zero. -/
def NoNegativeZero (nodes : List Float) : Prop :=
  ∀ x ∈ nodes, ¬IsNegativeZero x

theorem NoNegativeZero.modify {nodes : List Float} (h : NoNegativeZero nodes) (position : Nat)
    (delta : Float) : NoNegativeZero (nodes.modify position (· + delta)) := by
  intro x hx
  obtain ⟨i, hi⟩ := List.mem_iff_getElem?.1 hx
  rw [List.getElem?_modify] at hi
  obtain ⟨y, hy, rfl⟩ := Option.map_eq_some_iff.1 hi
  have hmem := h y (List.mem_of_getElem? hy)
  split
  · exact not_isNegativeZero_add hmem delta
  · exact hmem

theorem NoNegativeZero.add {nodes : List Float} (h : NoNegativeZero nodes) (index : Nat)
    (delta : Float) : NoNegativeZero (Fenwick.add nodes index delta) :=
  List.foldlRecOn _ _ h fun _ hnodes node _ => hnodes.modify (node - 1) delta

private theorem NoNegativeZero.modify_zero {nodes : List Float} (h : NoNegativeZero nodes)
    (position : Nat) : nodes.modify position (· + 0) = nodes := by
  refine List.ext_getElem? fun i => ?_
  rw [List.getElem?_modify]
  cases hi : nodes[i]? with
  | none => rfl
  | some x =>
      have hadd := add_zero_eq (h x (List.mem_of_getElem? hi))
      simp [hadd]

theorem NoNegativeZero.add_zero {nodes : List Float} (h : NoNegativeZero nodes) (index : Nat) :
    Fenwick.add nodes index 0 = nodes :=
  List.foldl_fixed' (fun node => h.modify_zero (node - 1)) _

theorem NoNegativeZero.update {f : Fenwick Float} (h : NoNegativeZero f.nodes) (index : Nat)
    (weight : Float) : NoNegativeZero (f.update index weight).nodes := by
  unfold Fenwick.update
  split
  · exact h.add _ _
  · exact h

private theorem noNegativeZero_zeros (size : Nat) : NoNegativeZero (zeros size).nodes := by
  intro x hx
  rw [List.eq_of_mem_replicate hx]
  exact not_isNegativeZero_zero

private theorem noNegativeZero_ofWeights (weights : List Float) :
    NoNegativeZero (ofWeights weights).nodes := by
  refine List.foldlRecOn (motive := fun f : Fenwick Float => NoNegativeZero f.nodes) _ _
    (noNegativeZero_zeros weights.length) ?_
  intro f hf slot _
  exact NoNegativeZero.update hf slot.2 slot.1

theorem NoNegativeZero.update_eq_self {f : Fenwick Float} (h : NoNegativeZero f.nodes) {index : Nat}
    {weight : Float} (hweight : f.weights[index]? = some (Draw.effective weight)) :
    f.update index weight = f := by
  obtain ⟨hindex, hget⟩ := List.getElem?_eq_some_iff.1 hweight
  simp only [Fenwick.update, hweight]
  rw [sub_self_eq_zero (Draw.isFinite_effective weight), h.add_zero, ← hget, List.set_getElem_self]

end Fenwick

namespace Sampler

/-- What building and updating keep of running sums and of trees. -/
def Steady : Sampler Float → Prop
  | .cumulative c => c.Summed
  | .fenwick f => Fenwick.NoNegativeZero f.nodes
  | .aliasBuckets _ => True

theorem steady_build (strategy : Strategy) (weights : List Float) :
    (build strategy weights).Steady := by
  cases strategy with
  | cumulative => exact Cumulative.summed_ofWeights weights
  | fenwick => exact Fenwick.noNegativeZero_ofWeights weights
  | aliasBuckets => trivial

theorem Steady.update {s : Sampler Float} (h : s.Steady) (index : Nat) (weight : Float) :
    (s.update index weight).Steady := by
  cases s with
  | cumulative c => exact Cumulative.Summed.update h index weight
  | fenwick f => exact Fenwick.NoNegativeZero.update h index weight
  | aliasBuckets a => trivial

theorem Steady.update_eq_self {s : Sampler Float} (h : s.Steady) {index : Nat} {weight : Float}
    (hweight : s.strategy ≠ .aliasBuckets → s.weights[index]? = some (Draw.effective weight)) :
    s.update index weight = s := by
  cases s with
  | cumulative c =>
      have hslot := hweight Strategy.noConfusion
      exact congrArg Sampler.cumulative (Cumulative.Summed.update_eq_self h hslot)
  | fenwick f =>
      have hslot := hweight Strategy.noConfusion
      exact congrArg Sampler.fenwick (Fenwick.NoNegativeZero.update_eq_self h hslot)
  | aliasBuckets a => rfl

end Sampler

end DropTable
