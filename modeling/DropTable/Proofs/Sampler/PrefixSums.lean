import Mathlib.Algebra.BigOperators.Group.List.Basic
import Mathlib.Algebra.BigOperators.Ring.List
import Mathlib.Algebra.Order.Ring.Rat
import Mathlib.Data.List.GetD
import Mathlib.Tactic.Linarith
import Mathlib.Tactic.Ring
import DropTable.Scalar.Rational
/-!
# Sums of the first weights

Laid end to end, weights divide the total into one piece each, which ends at the sum up to its
weight.  A target lies in the piece that is first to reach it.
-/

namespace DropTable

/-- The sum of the first weights, as many as are asked for. -/
def prefixSum (weights : List Rat) (count : Nat) : Rat :=
  (weights.take count).sum

@[simp] theorem prefixSum_zero (weights : List Rat) : prefixSum weights 0 = 0 := rfl

theorem prefixSum_length (weights : List Rat) : prefixSum weights weights.length = weights.sum := by
  rw [prefixSum, List.take_length]

theorem prefixSum_succ {weights : List Rat} {index : Nat} (hindex : index < weights.length) :
    prefixSum weights (index + 1) = prefixSum weights index + weights[index] :=
  List.sum_take_succ weights index hindex

theorem prefixSum_set {weights : List Rat} {index : Nat} (hindex : index < weights.length)
    (weight : Rat) (count : Nat) :
    prefixSum (weights.set index weight) count =
      prefixSum weights count + if index < count then weight - weights[index] else 0 := by
  unfold prefixSum
  rw [List.take_set, List.sum_set']
  by_cases hcount : index < count
  · have hboth : index < (weights.take count).length := by
      rw [List.length_take]
      omega
    rw [dif_pos hboth, if_pos hcount, List.getElem_take]
    ring
  · have hpast : ¬ index < (weights.take count).length := by
      rw [List.length_take]
      omega
    rw [dif_neg hpast, if_neg hcount]

private theorem prefixSum_le_succ {weights : List Rat} (hweights : ∀ w ∈ weights, 0 ≤ w)
    (count : Nat) :
    prefixSum weights count ≤ prefixSum weights (count + 1) := by
  by_cases hcount : count < weights.length
  · have hweight := hweights _ (List.getElem_mem hcount)
    rw [prefixSum_succ hcount]
    linarith
  · rw [prefixSum, prefixSum, List.take_of_length_le (by omega), List.take_of_length_le (by omega)]

theorem prefixSum_mono {weights : List Rat} (hweights : ∀ w ∈ weights, 0 ≤ w) :
    Monotone (prefixSum weights) :=
  monotone_nat_of_le_succ (prefixSum_le_succ hweights)

theorem prefixSum_nonneg {weights : List Rat} (hweights : ∀ w ∈ weights, 0 ≤ w) (count : Nat) :
    0 ≤ prefixSum weights count :=
  prefixSum_mono hweights (Nat.zero_le count)

/-- An index whose piece of the total is the first to reach a target. -/
structure FirstToReach (weights : List Rat) (target : Rat) (index : Nat) : Prop where
  lt_length : index < weights.length
  reaches : target ≤ prefixSum weights (index + 1)
  first : ∀ before < index, prefixSum weights (before + 1) < target

theorem FirstToReach.unique {weights : List Rat} {target : Rat} {index index' : Nat}
    (h : FirstToReach weights target index) (h' : FirstToReach weights target index') :
    index = index' := by
  by_contra hne
  rcases Nat.lt_or_gt_of_ne hne with hbefore | hafter
  · exact not_lt.2 h.reaches (h'.first index hbefore)
  · exact not_lt.2 h'.reaches (h.first index' hafter)

theorem firstToReach_succ_iff {weights : List Rat} (hweights : ∀ w ∈ weights, 0 ≤ w) {target : Rat}
    {index : Nat} (hindex : index + 1 < weights.length) :
    FirstToReach weights target (index + 1) ↔
      prefixSum weights (index + 1) < target ∧ target ≤ prefixSum weights (index + 2) := by
  constructor
  · intro h
    exact ⟨h.first index (Nat.lt_succ_self index), h.reaches⟩
  · intro h
    refine ⟨hindex, h.2, ?_⟩
    intro before hlt
    exact lt_of_le_of_lt (prefixSum_mono hweights hlt) h.1

theorem firstToReach_iff {weights : List Rat} (hweights : ∀ w ∈ weights, 0 ≤ w) {target : Rat}
    {index : Nat} (hindex : index < weights.length) :
    FirstToReach weights target index ↔
      (index = 0 ∨ prefixSum weights index < target) ∧
        target ≤ prefixSum weights (index + 1) := by
  cases index with
  | zero =>
      simp only [true_or, true_and]
      exact ⟨fun h => h.reaches, fun h => ⟨hindex, h, fun _ hbefore => absurd hbefore (by omega)⟩⟩
  | succ index =>
      rw [firstToReach_succ_iff hweights hindex]
      simp

theorem FirstToReach.weight_pos {weights : List Rat} {target : Rat} {index : Nat}
    (h : FirstToReach weights target index) :
    0 < weights.getD index 0 ∨ index = 0 ∧ ¬ 0 < target := by
  have hreaches := h.reaches
  rw [prefixSum_succ h.lt_length, ← List.getD_eq_getElem _ 0] at hreaches
  cases index with
  | zero =>
      rw [prefixSum_zero, zero_add] at hreaches
      by_cases htarget : 0 < target
      · exact .inl (lt_of_lt_of_le htarget hreaches)
      · exact .inr ⟨rfl, htarget⟩
  | succ index =>
      have hbefore := h.first index (Nat.lt_succ_self index)
      left
      linarith

/-! ## Pieces within pieces -/

theorem prefixSum_append_add (weights more : List Rat) (count : Nat) :
    prefixSum (weights ++ more) (weights.length + count) = weights.sum + prefixSum more count := by
  rw [prefixSum, List.take_length_add_append, List.sum_append, prefixSum]

theorem prefixSum_append_of_le {weights : List Rat} {count : Nat} (hcount : count ≤ weights.length)
    (more : List Rat) : prefixSum (weights ++ more) count = prefixSum weights count := by
  rw [prefixSum, List.take_append_of_le_length hcount, prefixSum]

theorem firstToReach_singleton {weight target : Rat} (h : target ≤ weight) :
    FirstToReach [weight] target 0 := by
  refine ⟨Nat.zero_lt_one, ?_, ?_⟩
  · simpa [prefixSum] using h
  · intro before hbefore
    contradiction

theorem FirstToReach.append {weights : List Rat} {target : Rat} {index : Nat}
    (h : FirstToReach weights target index) (more : List Rat) :
    FirstToReach (weights ++ more) target index := by
  have hlength := h.lt_length
  refine ⟨?_, ?_, ?_⟩
  · rw [List.length_append]
    omega
  · rw [prefixSum_append_of_le hlength]
    exact h.reaches
  · intro before hbefore
    rw [prefixSum_append_of_le (by omega)]
    exact h.first before hbefore

theorem FirstToReach.prepend {front weights : List Rat} {target : Rat} {index : Nat}
    (hfront : ∀ w ∈ front, 0 ≤ w) (hshort : front ≠ [] → front.sum < target)
    (h : FirstToReach weights (target - front.sum) index) :
    FirstToReach (front ++ weights) target (front.length + index) := by
  refine ⟨?_, ?_, ?_⟩
  · rw [List.length_append]
    exact Nat.add_lt_add_left h.lt_length _
  · rw [Nat.add_assoc, prefixSum_append_add]
    linarith [h.reaches]
  · intro before hbefore
    by_cases hin : before < front.length
    · have hne : front ≠ [] := List.ne_nil_of_length_pos (by omega)
      have hle : prefixSum front (before + 1) ≤ prefixSum front front.length :=
        prefixSum_mono hfront hin
      rw [prefixSum_append_of_le hin]
      rw [prefixSum_length] at hle
      exact lt_of_le_of_lt hle (hshort hne)
    · have hsplit : before + 1 = front.length + (before - front.length + 1) := by omega
      have hfirst := h.first (before - front.length) (by omega)
      rw [hsplit, prefixSum_append_add]
      linarith

theorem prefixSum_map_mul (factor : Rat) (weights : List Rat) (count : Nat) :
    prefixSum (weights.map (factor * ·)) count = factor * prefixSum weights count := by
  rw [prefixSum, ← List.map_take, List.sum_map_mul_left, List.map_id', prefixSum]

theorem FirstToReach.scale {weights : List Rat} {target factor : Rat} {index : Nat}
    (h : FirstToReach weights target index) (hweights : ∀ w ∈ weights, 0 ≤ w)
    (hfactor : 0 ≤ factor) (hvanish : factor = 0 → target ≤ 0) :
    FirstToReach (weights.map (factor * ·)) (factor * target) index := by
  refine ⟨by simpa using h.lt_length, ?_, ?_⟩
  · rw [prefixSum_map_mul]
    exact mul_le_mul_of_nonneg_left h.reaches hfactor
  · intro before hbefore
    have hfirst := h.first before hbefore
    have hpositive : 0 < factor := by
      refine lt_of_le_of_ne hfactor fun hzero => ?_
      have hnonneg := prefixSum_nonneg hweights (before + 1)
      linarith [hvanish hzero.symm]
    rw [prefixSum_map_mul]
    exact mul_lt_mul_of_pos_left hfirst hpositive

end DropTable
