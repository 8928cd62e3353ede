import DropTable.Proofs.Sampler.PrefixSums
import DropTable.Proofs.Sampler.Blocks
import DropTable.Proofs.Sampler.Slots
/-!
# What the nodes of a binary indexed tree hold

Over exact rationals every node holds the sum of the weights in its block, from the empty tree on
and through every update.  The blocks that a descent meets lie end to end, so that their sums add up
to the sum of all weights up to a position.
-/

namespace DropTable.Fenwick

section Nodes

variable {α : Type}

instance (node position : Nat) : Decidable (InBlock node position) :=
  inferInstanceAs (Decidable (_ ∧ _))

private theorem getElem?_foldl_modify (f : α → α) {nodes : List Nat} (hnodup : nodes.Nodup)
    (hpos : ∀ node ∈ nodes, 0 < node) (tree : List α) (index : Nat) :
    (nodes.foldl (fun tree node => tree.modify (node - 1) f) tree)[index]? =
      if index + 1 ∈ nodes then tree[index]?.map f else tree[index]? := by
  induction nodes generalizing tree with
  | nil => simp
  | cons node nodes ih =>
      obtain ⟨hfresh, hrest⟩ := List.nodup_cons.1 hnodup
      obtain ⟨hnode, hpositive⟩ := List.forall_mem_cons.1 hpos
      rw [List.foldl_cons, ih hrest hpositive]
      by_cases hindex : index + 1 = node
      · have hself : node - 1 = index := by omega
        rw [hself, hindex, if_neg hfresh, if_pos List.mem_cons_self, List.getElem?_modify_eq]
        rfl
      · have hother : node - 1 ≠ index := by omega
        rw [List.getElem?_modify_ne _ _ hother]
        simp only [List.mem_cons, hindex, false_or]

variable [Scalar α]

theorem getElem?_add (nodes : List α) (index : Nat) (delta : α) {node : Nat} (hnode : 0 < node) :
    (add nodes index delta)[node - 1]? =
      if InBlock node (index + 1) then nodes[node - 1]?.map (· + delta) else nodes[node - 1]? := by
  have hpos : ∀ other ∈ climb nodes.length (index + 1), 0 < other := by
    intro other hother
    obtain ⟨-, hblock⟩ := (mem_climb (Nat.succ_pos index)).1 hother
    unfold InBlock at hblock
    omega
  have hmem : node - 1 + 1 ∈ climb nodes.length (index + 1) ↔
      node ≤ nodes.length ∧ InBlock node (index + 1) := by
    rw [Nat.sub_add_cancel hnode]
    exact mem_climb (Nat.succ_pos index)
  rw [add, getElem?_foldl_modify _ (nodup_climb _ _) hpos]
  simp only [hmem]
  by_cases hsize : node ≤ nodes.length
  · simp only [hsize, true_and]
  · have hnone : nodes[node - 1]? = none := by
      rw [List.getElem?_eq_none_iff]
      omega
    simp [hnone]

@[simp] theorem length_add (nodes : List α) (index : Nat) (delta : α) :
    (add nodes index delta).length = nodes.length := by
  unfold add
  generalize climb nodes.length (index + 1) = visited
  induction visited generalizing nodes with
  | nil => rfl
  | cons node visited ih =>
      rw [List.foldl_cons, ih, List.length_modify]

end Nodes

/-- Every node holds the sum over its block, which is the difference of two sums from the start. -/
structure Tallied (f : Fenwick Rat) : Prop where
  length : f.nodes.length = f.weights.length
  node : ∀ node, 0 < node → node ≤ f.weights.length →
    f.nodes[node - 1]? =
      some (prefixSum f.weights node - prefixSum f.weights (node - lowBit node))

theorem tallied_zeros (size : Nat) : Tallied (zeros size) where
  length := by simp [zeros]
  node := by
    intro node hpos hnode
    have hlt : node - 1 < size := by
      simp only [zeros, List.length_replicate] at hnode
      omega
    simp [zeros, prefixSum, hlt]

theorem Tallied.update {f : Fenwick Rat} (h : f.Tallied) (index : Nat) (weight : Rat) :
    (f.update index weight).Tallied := by
  unfold Fenwick.update
  split
  case h_2 => exact h
  case h_1 current hcurrent =>
    obtain ⟨hindex, rfl⟩ := List.getElem?_eq_some_iff.1 hcurrent
    refine ⟨?_, ?_⟩
    · rw [length_add, List.length_set]
      exact h.length
    · intro node hpos hnode
      rw [List.length_set] at hnode
      rw [getElem?_add _ _ _ hpos, h.node node hpos hnode, prefixSum_set hindex,
        prefixSum_set hindex]
      have hle := lowBit_le node
      -- The difference of two prefix sums changes when the index lies between their ends.
      by_cases hblock : InBlock node (index + 1)
      · have hin : index < node ∧ ¬ index < node - lowBit node := by
          unfold InBlock at hblock
          omega
        rw [if_pos hblock, if_pos hin.1, if_neg hin.2, Option.map_some, Option.some.injEq]
        ring
      · rw [if_neg hblock, Option.some.injEq]
        by_cases hbefore : index < node
        · have hin : index < node - lowBit node := by
            unfold InBlock at hblock
            omega
          rw [if_pos hbefore, if_pos hin]
          ring
        · have hin : ¬ index < node - lowBit node := by omega
          rw [if_neg hbefore, if_neg hin]
          ring

theorem tallied_ofWeights (weights : List Rat) : (ofWeights weights).Tallied := by
  have hfold : ∀ (inserted : List (Rat × Nat)) (f : Fenwick Rat), f.Tallied →
      (inserted.foldl (fun f (weight, index) => f.update index weight) f).Tallied := by
    intro inserted
    induction inserted with
    | nil => exact fun f h => h
    | cons slot inserted ih => exact fun f h => ih _ (h.update slot.2 slot.1)
  exact hfold _ _ (tallied_zeros _)

/-! ## Sums up to a position -/

/-- The blocks of a descent lie end to end. -/
private theorem Tallied.foldl_descend {f : Fenwick Rat} (h : f.Tallied) {node : Nat}
    (hnode : node ≤ f.weights.length) (before : Rat) :
    (descend node).foldl (fun sum node => sum + f.nodes.getD (node - 1) 0) before =
      before + prefixSum f.weights node := by
  fun_induction descend node generalizing before with
  | case1 node hpos ih =>
      have htally : f.nodes.getD (node - 1) 0 =
          prefixSum f.weights node - prefixSum f.weights (node - lowBit node) := by
        rw [List.getD_eq_getElem?_getD, h.node node hpos hnode, Option.getD_some]
      rw [List.foldl_cons, ih (by omega), htally]
      ring
  | case2 node hzero =>
      have hnone : node = 0 := by omega
      simp [hnone, prefixSum]

theorem Tallied.sumTo_eq {f : Fenwick Rat} (h : f.Tallied) (index : Nat) :
    f.sumTo index = prefixSum f.weights (index + 1) := by
  have htake : f.weights.take (min (index + 1) f.size) = f.weights.take (index + 1) := by
    unfold Fenwick.size
    rw [← List.take_take, List.take_length]
  calc f.sumTo index
      = 0 + prefixSum f.weights (min (index + 1) f.size) :=
        h.foldl_descend (Nat.min_le_right (index + 1) f.size) 0
    _ = prefixSum f.weights (index + 1) := by
        rw [zero_add, prefixSum, prefixSum, htake]

theorem Tallied.total_eq {f : Fenwick Rat} (h : f.Tallied) : f.total = f.weights.sum := by
  unfold total Fenwick.size
  by_cases hempty : f.weights.length = 0
  · rw [if_pos hempty, List.length_eq_zero_iff.1 hempty]
    rfl
  · have hlast : f.weights.length - 1 + 1 = f.weights.length := by omega
    rw [if_neg hempty, h.sumTo_eq, hlast, prefixSum, List.take_length]

end DropTable.Fenwick
