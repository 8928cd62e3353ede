import Mathlib.Algebra.Order.BigOperators.Group.List
import Mathlib.Data.List.GetD
import DropTable.Proofs.Sampler.Selection
/-!
# Samplers that search answer for a list of weights

Over exact rationals, a sampler that searches answers every question as the list of its effective
weights does, whatever updates have led to it: the selected index owns the piece of the total in
which the draw's target lies, and the residual tells how far into the piece that is.  Hence nothing
tells stored sums from a binary indexed tree.
-/

namespace DropTable

/-! ## Draws in the pieces of the total -/

theorem FirstToReach.start_le {weights : List Rat} {target : Rat} {index : Nat}
    (h : FirstToReach weights target index) (htarget : 0 ≤ target) :
    prefixSum weights index ≤ target := by
  cases index with
  | zero => exact htarget
  | succ index => exact le_of_lt (h.first index (Nat.lt_succ_self index))

private theorem residual_eq {weights : List Rat} {draw : Rat} {index : Nat} (hdraw : 0 ≤ draw)
    (hpositive : 0 < weights.sum) (h : FirstToReach weights (draw * weights.sum) index)
    (hindex : index < weights.length) :
    Draw.residual weights.sum (fun index => prefixSum weights (index + 1)) index draw =
      if 0 < weights[index] then
        min ((draw * weights.sum - prefixSum weights index) / weights[index]) Scalar.lastDraw
      else 0 := by
  have hne : weights.sum ≠ 0 := ne_of_gt hpositive
  have hresidual :
      Draw.residual weights.sum (fun index => prefixSum weights (index + 1)) index draw =
      if prefixSum weights (index + 1) / weights.sum ≤ prefixSum weights index / weights.sum then 0
      else Draw.clampResidual ((draw - prefixSum weights index / weights.sum) /
        (prefixSum weights (index + 1) / weights.sum - prefixSum weights index / weights.sum)) := by
    cases index with
    | zero => simp [Draw.residual]
    | succ index => rfl
  rw [hresidual, prefixSum_succ hindex]
  by_cases hweight : 0 < weights[index]
  · have hstop : ¬ (prefixSum weights index + weights[index]) / weights.sum ≤
        prefixSum weights index / weights.sum := by
      rw [div_le_div_iff_of_pos_right hpositive]
      linarith
    have hscaled : (draw - prefixSum weights index / weights.sum) /
        ((prefixSum weights index + weights[index]) / weights.sum -
          prefixSum weights index / weights.sum) =
        (draw * weights.sum - prefixSum weights index) / weights[index] := by
      have hsize : (prefixSum weights index + weights[index]) / weights.sum -
          prefixSum weights index / weights.sum = weights[index] / weights.sum := by ring
      have hoffset : draw - prefixSum weights index / weights.sum =
          (draw * weights.sum - prefixSum weights index) / weights.sum := by
        rw [sub_div, mul_div_cancel_right₀ _ hne]
      rw [hsize, hoffset, div_div_div_cancel_right₀ hne]
    have hstart := h.start_le (mul_nonneg hdraw (le_of_lt hpositive))
    have hpart : 0 ≤ (draw * weights.sum - prefixSum weights index) / weights[index] :=
      div_nonneg (by linarith) (le_of_lt hweight)
    rw [if_neg hstop, if_pos hweight, hscaled, Draw.clampResidual_of_nonneg hpart]
  · have hstop : (prefixSum weights index + weights[index]) / weights.sum ≤
        prefixSum weights index / weights.sum := by
      rw [div_le_div_iff_of_pos_right hpositive]
      linarith
    rw [if_pos hstop, if_neg hweight]

namespace Sampler

/-- The answers that a list of effective weights gives to every question about it. -/
structure Answers (s : Sampler Rat) (weights : List Rat) : Prop where
  size : s.size = weights.length
  weight? : ∀ index, s.weight? index = weights[index]?
  sumTo : ∀ index, s.sumTo index = prefixSum weights (index + 1)
  sumTo_past : ∀ index, weights.length ≤ index → s.sumTo index = weights.sum
  total : s.total = weights.sum
  select?_eq_none : ∀ draw, 0 ≤ draw → draw ≤ 1 → (s.select? draw = none ↔ weights.sum = 0)
  select?_eq_some : ∀ draw index, 0 ≤ draw → draw ≤ 1 →
    (s.select? draw = some index ↔
      weights.sum ≠ 0 ∧ FirstToReach weights (draw * weights.sum) index)
  /-- Any index but the first is selected for the targets in its piece of the total. -/
  piece : ∀ draw index, 0 ≤ draw → draw ≤ 1 → index + 1 < weights.length → weights.sum ≠ 0 →
    (s.select? draw = some (index + 1) ↔ prefixSum weights (index + 1) < draw * weights.sum ∧
      draw * weights.sum ≤ prefixSum weights (index + 2))
  interval : ∀ draw index, 0 ≤ draw → draw ≤ 1 → index + 1 < weights.length → weights.sum ≠ 0 →
    (s.select? draw = some (index + 1) ↔ prefixSum weights (index + 1) / weights.sum < draw ∧
      draw ≤ prefixSum weights (index + 2) / weights.sum)
  interval_length : ∀ index, (hindex : index < weights.length) →
    prefixSum weights (index + 1) / weights.sum - prefixSum weights index / weights.sum =
      weights[index] / weights.sum
  pick? : ∀ draw, 0 ≤ draw → draw ≤ 1 →
    s.pick? draw = (s.select? draw).map fun index =>
      ⟨index, if 0 < weights.getD index 0 then
        min ((draw * weights.sum - prefixSum weights index) / weights.getD index 0) Scalar.lastDraw
      else 0⟩

/-- Samplers that no question tells apart. -/
structure Alike (s s' : Sampler Rat) : Prop where
  size : s.size = s'.size
  weight? : s.weight? = s'.weight?
  sumTo : s.sumTo = s'.sumTo
  total : s.total = s'.total
  supportsUpdate : s.supportsUpdate = s'.supportsUpdate
  select? : s.select? = s'.select?
  pick? : s.pick? = s'.pick?
  selectWith : s.selectWith = s'.selectWith
  pickWith : s.pickWith = s'.pickWith

namespace Searches

variable {s s' : Sampler Rat} {weights : List Rat}

theorem sumTo_eq (h : s.Searches weights) :
    s.sumTo = fun index => prefixSum weights (index + 1) :=
  funext h.sumTo

theorem select?_eq_some_iff (h : s.Searches weights) {draw : Rat} {index : Nat} :
    s.select? draw = some index ↔
      ∃ target, Draw.target? draw weights.sum = some target ∧
        FirstToReach weights target index := by
  have hselect := h.select? draw
  cases htarget : Draw.target? draw weights.sum with
  | none => simp_all
  | some target =>
      rw [htarget] at hselect
      obtain ⟨found, hfound, hfirst⟩ := hselect
      constructor
      · intro hindex
        rw [hindex, Option.some.injEq] at hfound
        exact ⟨target, rfl, hfound ▸ hfirst⟩
      · intro hreached
        obtain ⟨target', htarget', hindex⟩ := hreached
        rw [Option.some.injEq] at htarget'
        rw [← htarget'] at hindex
        rw [hfound, hfirst.unique hindex]

theorem select?_eq_some_iff_of_mem (h : s.Searches weights) {draw : Rat} {index : Nat}
    (hlow : 0 ≤ draw) (hhigh : draw ≤ 1) :
    s.select? draw = some index ↔
      0 < weights.sum ∧ FirstToReach weights (draw * weights.sum) index := by
  rw [h.select?_eq_some_iff, Draw.target?_eq, Draw.clamp_of_mem hlow hhigh]
  by_cases hpositive : 0 < weights.sum
  · simp [hpositive]
  · simp [hpositive]

theorem select?_eq (h : s.Searches weights) (h' : s'.Searches weights) :
    s.select? = s'.select? := by
  funext draw
  apply Option.ext
  intro index
  rw [h.select?_eq_some_iff, h'.select?_eq_some_iff]

private theorem total_nonneg (h : s.Searches weights) : 0 ≤ weights.sum :=
  List.sum_nonneg h.nonneg

private theorem sum_pos_iff (h : s.Searches weights) : 0 < weights.sum ↔ weights.sum ≠ 0 := by
  have hnonneg := h.total_nonneg
  constructor
  · exact ne_of_gt
  · exact fun hne => lt_of_le_of_ne hnonneg hne.symm

theorem select?_eq_none_iff (h : s.Searches weights) {draw : Rat} :
    s.select? draw = none ↔ weights.sum = 0 := by
  have hselect := h.select? draw
  have hpositive := h.sum_pos_iff
  rw [Draw.target?_eq] at hselect
  by_cases hzero : weights.sum = 0
  · rw [if_neg (by simp [hzero])] at hselect
    simp [hselect, hzero]
  · rw [if_pos (hpositive.2 hzero)] at hselect
    obtain ⟨index, hindex, -⟩ := hselect
    simp [hindex, hzero]

theorem pick?_eq (h : s.Searches weights) {draw : Rat} (hlow : 0 ≤ draw) (hhigh : draw ≤ 1) :
    s.pick? draw = (s.select? draw).map fun index =>
      ⟨index, if 0 < weights.getD index 0 then
        min ((draw * weights.sum - prefixSum weights index) / weights.getD index 0) Scalar.lastDraw
      else 0⟩ := by
  rw [pick?_eq_map h.strategy, h.total, h.sumTo_eq]
  cases hselect : s.select? draw with
  | none => rfl
  | some index =>
      obtain ⟨hpositive, hfirst⟩ := (h.select?_eq_some_iff_of_mem hlow hhigh).1 hselect
      have hindex := hfirst.lt_length
      rw [Option.map_some, Option.map_some, residual_eq hlow hpositive hfirst hindex,
        List.getD_eq_getElem _ _ hindex]

theorem answers (h : s.Searches weights) : s.Answers weights where
  size := by rw [size_eq, h.slots]
  weight? := by
    intro index
    rw [weight?_eq, h.slots]
  sumTo := h.sumTo
  sumTo_past := by
    intro index hindex
    rw [h.sumTo, prefixSum, List.take_of_length_le (by omega)]
  total := h.total
  select?_eq_none := fun _ _ _ => h.select?_eq_none_iff
  select?_eq_some := by
    intro draw index hlow hhigh
    rw [h.select?_eq_some_iff_of_mem hlow hhigh, h.sum_pos_iff]
  piece := by
    intro draw index hlow hhigh hindex hne
    rw [h.select?_eq_some_iff_of_mem hlow hhigh, firstToReach_succ_iff h.nonneg hindex]
    exact and_iff_right (h.sum_pos_iff.2 hne)
  interval := by
    intro draw index hlow hhigh hindex hne
    have hpositive := h.sum_pos_iff.2 hne
    rw [h.select?_eq_some_iff_of_mem hlow hhigh, firstToReach_succ_iff h.nonneg hindex,
      div_lt_iff₀ hpositive, le_div_iff₀ hpositive]
    exact and_iff_right hpositive
  interval_length := by
    intro index hindex
    rw [prefixSum_succ hindex]
    ring
  pick? := fun _ hlow hhigh => h.pick?_eq hlow hhigh

theorem alike (h : s.Searches weights) (h' : s'.Searches weights) : s.Alike s' := by
  have hselect := h.select?_eq h'
  have hsumTo : s.sumTo = s'.sumTo := h.sumTo_eq.trans h'.sumTo_eq.symm
  have htotal : s.total = s'.total := h.total.trans h'.total.symm
  have hpick : s.pick? = s'.pick? := by
    funext draw
    rw [pick?_eq_map h.strategy, pick?_eq_map h'.strategy, hselect, hsumTo, htotal]
  refine ⟨?_, ?_, hsumTo, htotal, ?_, hselect, hpick, ?_, ?_⟩
  · rw [size_eq, size_eq, h.slots, h'.slots]
  · funext index
    rw [weight?_eq, weight?_eq, h.slots, h'.slots]
  · rw [(supportsUpdate_iff s).2 h.strategy, (supportsUpdate_iff s').2 h'.strategy]
  · funext draw words
    rw [selectWith_eq h.strategy, selectWith_eq h'.strategy, hselect]
  · funext draw words
    rw [pickWith_eq h.strategy, pickWith_eq h'.strategy, hpick]

end Searches

/-! ## Every history of updates -/

/-- What is kept beside the weights belongs to them. -/
def Kept : Sampler Rat → Prop
  | .cumulative c => c.Summed
  | .fenwick f => f.Tallied
  | .aliasBuckets _ => False

theorem kept_build {strategy : Strategy} (hstrategy : strategy ≠ .aliasBuckets)
    (weights : List Rat) : (build strategy weights).Kept := by
  cases strategy with
  | cumulative => exact Cumulative.summed_ofWeights weights
  | fenwick => exact Fenwick.tallied_ofWeights weights
  | aliasBuckets => contradiction

theorem Kept.update {s : Sampler Rat} (h : s.Kept) (index : Nat) (weight : Rat) :
    (s.update index weight).Kept := by
  cases s with
  | cumulative c => exact Cumulative.Summed.update h index weight
  | fenwick f => exact Fenwick.Tallied.update h index weight
  | aliasBuckets a => exact h

theorem Kept.updateAll {s : Sampler Rat} (h : s.Kept) (updates : List (Nat × Rat)) :
    (s.updateAll updates).Kept := by
  induction updates generalizing s with
  | nil => exact h
  | cons update updates ih => exact ih (h.update update.1 update.2)

theorem Kept.searches {s : Sampler Rat} (h : s.Kept) (hnonneg : ∀ w ∈ s.weights, 0 ≤ w) :
    s.Searches s.weights := by
  cases s with
  | cumulative c => exact Cumulative.Summed.searches h hnonneg
  | fenwick f => exact Fenwick.Tallied.searches h hnonneg
  | aliasBuckets a => exact h.elim

private theorem revise_nonneg {weights : List Rat} (hweights : ∀ w ∈ weights, 0 ≤ w)
    (updates : List (Nat × Rat)) : ∀ w ∈ revise weights updates, 0 ≤ w := by
  induction updates generalizing weights with
  | nil => exact hweights
  | cons update updates ih =>
      apply ih
      intro w hw
      rcases List.mem_or_eq_of_mem_set hw with hold | rfl
      · exact hweights w hold
      · exact Draw.effective_nonneg update.2

theorem searches_updateAll {strategy : Strategy} (hstrategy : strategy ≠ .aliasBuckets)
    (weights : List Rat) (updates : List (Nat × Rat)) :
    ((build strategy weights).updateAll updates).Searches
      (revise (weights.map Draw.effective) updates) := by
  have hslots : ((build strategy weights).updateAll updates).weights =
      revise (weights.map Draw.effective) updates := by
    rw [weights_updateAll (by rw [strategy_build]; exact hstrategy), weights_build]
  have hkept := (kept_build hstrategy weights).updateAll updates
  rw [← hslots]
  apply hkept.searches
  rw [hslots]
  exact revise_nonneg (Draw.map_effective_nonneg weights) updates

/-- Both samplers give the answers of the list of current weights, whatever has been updated. -/
theorem answers_updateAll (weights : List Rat) (updates : List (Nat × Rat)) :
    let current := revise (weights.map Draw.effective) updates
    let sums := (build .cumulative weights).updateAll updates
    let tree := (build .fenwick weights).updateAll updates
    sums.Answers current ∧ tree.Answers current ∧ sums.Alike tree := by
  intro current sums tree
  have hsums : sums.Searches current := searches_updateAll (by decide) weights updates
  have htree : tree.Searches current := searches_updateAll (by decide) weights updates
  exact ⟨hsums.answers, htree.answers, hsums.alike htree⟩

end Sampler

end DropTable
