import DropTable.Proofs.Sampler.Draws
import DropTable.Proofs.Sampler.PrefixSums
import DropTable.Proofs.Sampler.RunningSums
import DropTable.Proofs.Sampler.Search
import DropTable.Proofs.Sampler.Tree
/-!
# Both searches find the first index

Over exact rationals, the stored sums and the nodes of a binary indexed tree yield the same sums up
to each position, the prefix sums of the effective weights.  Either search finds the index whose
piece of the total is the first to reach the target of a draw.
-/

namespace DropTable

/-- A sampler that searches the pieces of the total for the first to reach a target. -/
structure Sampler.Searches (s : Sampler Rat) (weights : List Rat) : Prop where
  slots : s.weights = weights
  strategy : s.strategy ≠ .aliasBuckets
  nonneg : ∀ w ∈ weights, 0 ≤ w
  total : s.total = weights.sum
  sumTo : ∀ index, s.sumTo index = prefixSum weights (index + 1)
  select? : ∀ draw, match Draw.target? draw weights.sum with
    | some target => ∃ index, s.select? draw = some index ∧ FirstToReach weights target index
    | none => s.select? draw = none

namespace Cumulative

private theorem sumFrom_zero (weights : List Rat) : sumFrom 0 weights = weights.sum :=
  List.sum_eq_foldl.symm

private theorem firstToReach_rank {weights : List Rat} {target : Rat}
    (htarget : target ≤ weights.sum) (hlength : 0 < weights.length) :
    FirstToReach weights target (rank (runningSums 0 weights) target) := by
  have hsum : ∀ index (hindex : index < (runningSums 0 weights).length),
      (runningSums 0 weights)[index] = prefixSum weights (index + 1) := by
    intro index hindex
    have hget := getElem?_runningSums (by simpa using hindex) (0 : Rat)
    rw [List.getElem?_eq_getElem hindex, Option.some.injEq] at hget
    rw [hget, sumFrom_zero]
    rfl
  have hlast : weights.length - 1 < (runningSums 0 weights).length := by
    rw [length_runningSums]
    omega
  have hlt : rank (runningSums 0 weights) target < (runningSums 0 weights).length := by
    rw [rank_lt_length_iff]
    refine ⟨_, List.getElem_mem hlast, ?_⟩
    rw [hsum, Nat.sub_add_cancel hlength, prefixSum_length]
    exact not_lt.2 htarget
  refine ⟨by simpa using hlt, ?_, ?_⟩
  · rw [← hsum _ hlt]
    exact not_lt.1 (not_getElem_rank_lt hlt)
  · intro before hbefore
    rw [← hsum before (by omega)]
    exact getElem_lt_of_lt_rank (by omega) hbefore

theorem Summed.searches {c : Cumulative Rat} (h : c.Summed) (hnonneg : ∀ w ∈ c.weights, 0 ≤ w) :
    (Sampler.cumulative c).Searches c.weights where
  slots := rfl
  strategy := by simp [Sampler.strategy]
  nonneg := hnonneg
  total := h.total_eq.trans (sumFrom_zero _)
  sumTo := fun index => (h.sumTo_eq index).trans (sumFrom_zero _)
  select? := by
    intro draw
    have htotal : c.total = c.weights.sum := h.total_eq.trans (sumFrom_zero _)
    have hselect : (Sampler.cumulative c).select? draw =
        (Draw.target? draw c.weights.sum).map fun target =>
          min (rank (runningSums 0 c.weights) target) (c.weights.length - 1) := by
      rw [← htotal, ← length_runningSums (0 : Rat) c.weights, ← h]
      rfl
    rw [hselect]
    cases htarget : Draw.target? draw c.weights.sum with
    | none => rfl
    | some target =>
        obtain ⟨hpositive, -, hle⟩ := Draw.target?_bounds htarget
        have hlength : 0 < c.weights.length := List.length_pos_of_sum_pos _ hpositive
        have hfirst := firstToReach_rank hle hlength
        have hmin := Nat.le_sub_one_of_lt hfirst.lt_length
        exact ⟨_, congrArg some (Nat.min_eq_left hmin), hfirst⟩

end Cumulative

namespace Fenwick

theorem firstToReach_search {weights : List Rat} (hnonneg : ∀ w ∈ weights, 0 ≤ w) {target : Rat}
    (htarget : target ≤ weights.sum) (hlength : 0 < weights.length) :
    FirstToReach weights target
      (search (fun index => target ≤ prefixSum weights (index + 1)) 0 (weights.length - 1)) := by
  let reaches : Nat → Bool := fun index => target ≤ prefixSum weights (index + 1)
  have hmono : ∀ first second, first ≤ second → reaches first = true → reaches second = true := by
    intro first second hfirst hreaches
    have hle : prefixSum weights (first + 1) ≤ prefixSum weights (second + 1) :=
      prefixSum_mono hnonneg (Nat.succ_le_succ hfirst)
    exact decide_eq_true ((of_decide_eq_true hreaches).trans hle)
  have hend : reaches (weights.length - 1) = true := by
    apply decide_eq_true
    rw [Nat.sub_add_cancel hlength, prefixSum_length]
    exact htarget
  obtain ⟨-, hhigh⟩ := search_mem reaches (Nat.zero_le (weights.length - 1))
  have hreaches := reaches_search (Nat.zero_le _) hend
  refine ⟨?_, of_decide_eq_true hreaches, ?_⟩
  · exact Nat.lt_of_le_pred hlength hhigh
  · intro before hbefore
    have hnot := not_reaches_of_lt_search hmono (Nat.zero_le before) hbefore
    exact not_le.1 (of_decide_eq_false hnot)

theorem Tallied.searches {f : Fenwick Rat} (h : f.Tallied) (hnonneg : ∀ w ∈ f.weights, 0 ≤ w) :
    (Sampler.fenwick f).Searches f.weights where
  slots := rfl
  strategy := by simp [Sampler.strategy]
  nonneg := hnonneg
  total := h.total_eq
  sumTo := h.sumTo_eq
  select? := by
    intro draw
    have hselect : (Sampler.fenwick f).select? draw =
        (Draw.target? draw f.weights.sum).map fun target =>
          search (fun index => target ≤ prefixSum f.weights (index + 1)) 0
            (f.weights.length - 1) := by
      simp only [← h.sumTo_eq, ← h.total_eq]
      rfl
    rw [hselect]
    cases htarget : Draw.target? draw f.weights.sum with
    | none => rfl
    | some target =>
        obtain ⟨hpositive, -, hle⟩ := Draw.target?_bounds htarget
        have hlength : 0 < f.weights.length := List.length_pos_of_sum_pos _ hpositive
        exact ⟨_, rfl, firstToReach_search hnonneg hle hlength⟩

end Fenwick

end DropTable
