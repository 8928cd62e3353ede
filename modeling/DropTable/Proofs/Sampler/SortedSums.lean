import DropTable.Proofs.Sampler.DoubleDraws
import DropTable.Proofs.Sampler.RunningSums
import DropTable.Proofs.Sampler.Search
/-!
# Sums of doubles stay in order

Running sums of doubles may be rounded and may overflow, but they never fall, whatever has been
updated.  A target therefore parts them into sums below it and sums that reach it, and an index
without weight, whose sum is that of the index before, is never the first to reach it.
-/

namespace DropTable.Cumulative

open Binary64

/-! ## Sums that do not fall -/

section Sums

variable {before : Float} {weights : List Float}

private theorem le_sumFrom (hbefore : 0 ≤ before) (h : ∀ w ∈ weights, Draw.Effective w) :
    before ≤ sumFrom before weights := by
  induction weights generalizing before with
  | nil => exact le_refl (isNaN_of_le hbefore).2
  | cons weight weights ih =>
      obtain ⟨hweight, hrest⟩ := List.forall_mem_cons.1 h
      have hstep := (le_add hbefore hweight.nonneg).1
      exact le_trans hstep (ih (le_trans hbefore hstep) hrest)

private theorem le_sumFrom_of_mem (hbefore : 0 ≤ before) (h : ∀ w ∈ weights, Draw.Effective w)
    {weight : Float} (hmem : weight ∈ weights) : weight ≤ sumFrom before weights := by
  induction weights generalizing before with
  | nil => contradiction
  | cons first weights ih =>
      obtain ⟨hfirst, hrest⟩ := List.forall_mem_cons.1 h
      have hnext := add_nonneg hbefore hfirst.nonneg
      rcases List.mem_cons.1 hmem with rfl | hmem
      · exact le_trans (le_add hbefore hfirst.nonneg).2 (le_sumFrom hnext hrest)
      · exact ih hnext hrest hmem

private theorem sumFrom_le_of_zeros (hbefore : 0 ≤ before) (h : ∀ w ∈ weights, w = 0) :
    sumFrom before weights ≤ before := by
  induction weights generalizing before with
  | nil => exact le_refl (isNaN_of_le hbefore).2
  | cons weight weights ih =>
      obtain ⟨rfl, hrest⟩ := List.forall_mem_cons.1 h
      have hzero : (0 : Float) ≤ 0 := le_refl reads_zero.isNaN_eq
      exact le_trans (ih (add_nonneg hbefore hzero) hrest) (add_zero_le hbefore)

theorem sumFrom_pos_iff (hbefore : Reads before 0) (h : ∀ w ∈ weights, Draw.Effective w) :
    0 < sumFrom before weights ↔ ∃ w ∈ weights, w ≠ 0 := by
  have hlow : 0 ≤ before := (reads_zero.le_iff hbefore).2 le_rfl
  have hhigh : before ≤ 0 := (hbefore.le_iff reads_zero).2 le_rfl
  constructor
  · intro hpositive
    by_contra hnone
    simp only [not_exists, not_and, not_not] at hnone
    exact not_lt_of_le (le_trans (sumFrom_le_of_zeros hlow hnone) hhigh) hpositive
  · rintro ⟨weight, hmem, hne⟩
    have hpositive := (h weight hmem).resolve_left hne
    exact lt_of_lt_of_le hpositive (le_sumFrom_of_mem hlow h hmem)

private theorem mem_runningSums {sum : Float} :
    sum ∈ runningSums before weights ↔
      ∃ index < weights.length, sum = sumFrom before (weights.take (index + 1)) := by
  rw [List.mem_iff_getElem?]
  constructor
  · rintro ⟨index, hindex⟩
    have hlt := (List.getElem?_eq_some_iff.1 hindex).1
    rw [length_runningSums] at hlt
    rw [getElem?_runningSums hlt, Option.some.injEq] at hindex
    exact ⟨index, hlt, hindex.symm⟩
  · rintro ⟨index, hlt, rfl⟩
    exact ⟨index, getElem?_runningSums hlt before⟩

theorem pairwise_runningSums (hbefore : 0 ≤ before) (h : ∀ w ∈ weights, Draw.Effective w) :
    (runningSums before weights).Pairwise (· ≤ ·) := by
  induction weights generalizing before with
  | nil => exact .nil
  | cons weight weights ih =>
      obtain ⟨hweight, hrest⟩ := List.forall_mem_cons.1 h
      have hnext := add_nonneg hbefore hweight.nonneg
      refine .cons ?_ (ih hnext hrest)
      intro sum hsum
      obtain ⟨index, -, rfl⟩ := mem_runningSums.1 hsum
      exact le_sumFrom hnext fun w hw => hrest w (List.mem_of_mem_take hw)

end Sums

/-! ## Selections -/

/-- The index that a target stands for. The sums before it are less than the target, and no sum from
it on is. -/
structure Selects (c : Cumulative Float) (target : Float) (index : Nat) : Prop where
  lt_size : index < c.size
  /-- Nothing is gained by the bound on the index. -/
  rank_eq : rank c.sums target = index
  below : ∀ sum ∈ c.sums.take index, sum < target
  reaches : ∀ sum ∈ c.sums.drop index, ¬ sum < target
  /-- The first index is left if the target is no more than zero or a NaN. -/
  weight_pos : (∃ weight, c.weight? index = some weight ∧ 0 < weight) ∨ index = 0 ∧ ¬ 0 < target

/-- Sums in order, and selections that go by the order. -/
structure Sorted (c : Cumulative Float) : Prop where
  pairwise : c.sums.Pairwise (· ≤ ·)
  select?_eq_none_iff : ∀ draw, c.select? draw = none ↔
    draw.isNaN = true ∨ ∀ w ∈ c.weights, w = 0
  selects : ∀ draw index, c.select? draw = some index →
    c.Selects (Scalar.clamp 0 1 draw * c.total) index

section Summed

variable {c : Cumulative Float}

theorem Summed.pairwise (h : c.Summed) (hweights : ∀ w ∈ c.weights, Draw.Effective w) :
    c.sums.Pairwise (· ≤ ·) := by
  rw [h]
  exact pairwise_runningSums (le_refl reads_zero.isNaN_eq) hweights

theorem Summed.length_eq (h : c.Summed) : c.sums.length = c.size := by
  rw [h, length_runningSums, size]

theorem Summed.total_pos_iff (h : c.Summed) (hweights : ∀ w ∈ c.weights, Draw.Effective w) :
    0 < c.total ↔ ∃ w ∈ c.weights, w ≠ 0 := by
  rw [h.total_eq]
  exact sumFrom_pos_iff reads_zero hweights

private theorem total_mem (hpositive : 0 < c.total) : c.total ∈ c.sums := by
  unfold total at hpositive ⊢
  cases hlast : c.sums.getLast? with
  | none =>
      rw [hlast, Option.getD_none, reads_zero.lt_iff reads_zero] at hpositive
      exact absurd hpositive (lt_irrefl 0)
  | some sum => exact List.mem_of_getLast? hlast

private theorem Summed.sum_le_of_zero (h : c.Summed) (hweights : ∀ w ∈ c.weights, Draw.Effective w)
    {index : Nat} (hindex : c.weight? index = some 0) :
    c.sumTo index ≤ sumFrom 0 (c.weights.take index) := by
  have hlt := (List.getElem?_eq_some_iff.1 hindex).1
  have htake : c.weights.take (index + 1) = c.weights.take index ++ [0] := by
    rw [List.take_add_one, ← weight?, hindex, Option.toList_some]
  rw [h.sumTo_eq, htake, sumFrom, List.foldl_append]
  apply add_zero_le
  exact le_sumFrom (le_refl reads_zero.isNaN_eq) fun w hw => hweights w (List.mem_of_mem_take hw)

private theorem sumTo_of_lt {index : Nat} (hindex : index < c.sums.length) :
    c.sumTo index = c.sums[index] := by
  rw [sumTo, List.getElem?_eq_getElem hindex, Option.getD_some]

theorem Summed.weight_pos (h : c.Summed) (hweights : ∀ w ∈ c.weights, Draw.Effective w)
    {index : Nat} (hindex : index < c.weights.length) {target : Float}
    (hbefore : ∀ previous, index = previous + 1 → c.sumTo previous < target)
    (hreached : ¬ c.sumTo index < target) :
    (∃ weight, c.weight? index = some weight ∧ 0 < weight) ∨ index = 0 ∧ ¬ 0 < target := by
  obtain hzero | hpositive := hweights _ (List.getElem_mem hindex)
  · have hslot : c.weight? index = some 0 := by
      rw [weight?, List.getElem?_eq_getElem hindex, hzero]
    have hsum := h.sum_le_of_zero hweights hslot
    right
    cases index with
    | zero => exact ⟨rfl, fun hlow => hreached (lt_of_le_of_lt hsum hlow)⟩
    | succ previous =>
        have hprevious := hbefore previous rfl
        rw [h.sumTo_eq] at hprevious
        exact absurd (lt_of_le_of_lt hsum hprevious) hreached
  · exact .inl ⟨_, List.getElem?_eq_getElem hindex, hpositive⟩

theorem Summed.selects_rank (h : c.Summed) (hweights : ∀ w ∈ c.weights, Draw.Effective w)
    (hpositive : 0 < c.total) {target : Float} (htarget : ¬ c.total < target) :
    c.Selects target (rank c.sums target) := by
  have hlt : rank c.sums target < c.sums.length :=
    rank_lt_length_iff.2 ⟨c.total, total_mem hpositive, htarget⟩
  have hreached : ¬ c.sums[rank c.sums target] < target := not_getElem_rank_lt hlt
  refine ⟨h.length_eq ▸ hlt, rfl, ?_, ?_, ?_⟩
  · intro sum hsum
    obtain ⟨position, hposition, rfl⟩ := List.mem_iff_getElem.1 hsum
    rw [List.length_take] at hposition
    rw [List.getElem_take]
    exact getElem_lt_of_lt_rank (by omega) (by omega)
  · intro sum hsum hbelow
    obtain ⟨position, hposition, rfl⟩ := List.mem_iff_getElem.1 hsum
    rw [List.length_drop] at hposition
    rw [List.getElem_drop] at hbelow
    have hle : c.sums[rank c.sums target] ≤ c.sums[rank c.sums target + position] := by
      rcases Nat.eq_zero_or_pos position with rfl | hpos
      · exact le_refl (isNaN_of_lt hbelow).1
      · exact List.pairwise_iff_getElem.1 (h.pairwise hweights) _ _ _ _ (by omega)
    exact hreached (lt_of_le_of_lt hle hbelow)
  · apply h.weight_pos hweights
    · rw [h.length_eq] at hlt
      exact hlt
    · intro previous hprevious
      rw [sumTo_of_lt (by omega)]
      exact getElem_lt_of_lt_rank _ (by omega)
    · rw [sumTo_of_lt hlt]
      exact hreached

theorem Summed.select?_eq (h : c.Summed) (hweights : ∀ w ∈ c.weights, Draw.Effective w)
    (draw : Float) :
    c.select? draw =
      if !draw.isNaN && decide (0 < c.total) then
        some (rank c.sums (Scalar.clamp 0 1 draw * c.total))
      else none := by
  have htarget : Draw.target? draw c.total =
      if !draw.isNaN && decide (0 < c.total) then some (Scalar.clamp 0 1 draw * c.total)
      else none := rfl
  rw [select?, htarget]
  split
  case isTrue hanswers =>
    rw [Bool.and_eq_true, Bool.not_eq_true', decide_eq_true_eq] at hanswers
    obtain ⟨hdraw, hpositive⟩ := hanswers
    obtain ⟨hlow, hhigh⟩ := Draw.clamp_unit hdraw
    have hselects := h.selects_rank hweights hpositive (not_lt_mul hlow hhigh hpositive)
    have hlt := hselects.lt_size
    rw [Option.map_some, ← rank, Nat.min_eq_left (by rw [h.length_eq]; omega)]
  case isFalse => rfl

theorem Summed.sorted (h : c.Summed) (hweights : ∀ w ∈ c.weights, Draw.Effective w) :
    c.Sorted := by
  refine ⟨h.pairwise hweights, ?_, ?_⟩
  · intro draw
    have hzeros : (∀ w ∈ c.weights, w = 0) ↔ ¬ 0 < c.total := by
      rw [h.total_pos_iff hweights]
      simp only [not_exists, not_and, not_not]
    rw [h.select?_eq hweights, hzeros]
    cases draw.isNaN <;> simp
  · intro draw index hselect
    rw [h.select?_eq hweights] at hselect
    split at hselect
    case isTrue hanswers =>
      rw [Bool.and_eq_true, Bool.not_eq_true', decide_eq_true_eq] at hanswers
      obtain ⟨hdraw, hpositive⟩ := hanswers
      obtain ⟨hlow, hhigh⟩ := Draw.clamp_unit hdraw
      rw [Option.some.injEq] at hselect
      rw [← hselect]
      exact h.selects_rank hweights hpositive (not_lt_mul hlow hhigh hpositive)
    case isFalse => contradiction

end Summed

/-! ## Every history of updates -/

/-- The sums after updates of indices, the first update first. -/
def updateAll {α : Type} [Scalar α] (c : Cumulative α) (updates : List (Nat × α)) : Cumulative α :=
  updates.foldl (fun c (index, weight) => c.update index weight) c

theorem Summed.updateAll {α : Type} [Scalar α] {c : Cumulative α} (h : c.Summed)
    (updates : List (Nat × α)) : (c.updateAll updates).Summed := by
  induction updates generalizing c with
  | nil => exact h
  | cons update updates ih => exact ih (h.update update.1 update.2)

theorem weights_updateAll {α : Type} [Scalar α] (c : Cumulative α) (updates : List (Nat × α)) :
    (c.updateAll updates).weights = Sampler.revise c.weights updates := by
  induction updates generalizing c with
  | nil => rfl
  | cons update updates ih =>
      calc ((c.update update.1 update.2).updateAll updates).weights
          = Sampler.revise (c.update update.1 update.2).weights updates := ih _
        _ = Sampler.revise c.weights (update :: updates) := by
            rw [weights_update]
            rfl

private theorem effective_revise {weights : List Float} (h : ∀ w ∈ weights, Draw.Effective w)
    (updates : List (Nat × Float)) : ∀ w ∈ Sampler.revise weights updates, Draw.Effective w := by
  induction updates generalizing weights with
  | nil => exact h
  | cons update updates ih =>
      apply ih
      intro w hw
      rcases List.mem_or_eq_of_mem_set hw with hold | rfl
      · exact h w hold
      · exact Draw.effective_mem update.2

/-- Whatever the weights are and whatever has been updated, the sums are in order and a draw selects
by that order. -/
theorem sorted_updateAll (weights : List Float) (updates : List (Nat × Float)) :
    let c := (ofWeights weights).updateAll updates
    c.weights = Sampler.revise (weights.map Draw.effective) updates ∧ c.Sorted := by
  intro c
  have hslots : c.weights = Sampler.revise (weights.map Draw.effective) updates :=
    weights_updateAll (ofWeights weights) updates
  refine ⟨hslots, ((summed_ofWeights weights).updateAll updates).sorted ?_⟩
  change ∀ w ∈ c.weights, Draw.Effective w
  rw [hslots]
  apply effective_revise
  intro w hw
  obtain ⟨weight, -, rfl⟩ := List.mem_map.1 hw
  exact Draw.effective_mem weight

/-- Where the total overflows, a draw of zero has no target, and the first index is left without any
weight. -/
example : (ofWeights [0, 1e308, 1e308] : Cumulative Float).select? 0 = some 0 := by decide +kernel

end DropTable.Cumulative
