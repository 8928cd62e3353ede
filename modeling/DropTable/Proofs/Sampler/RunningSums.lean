import DropTable.Proofs.Sampler.Slots
/-!
# Running sums after updates

An update forms anew only the sums from its index on, on top of the last sum before.  What it leaves
behind are the running sums of the new weights, added up from the left as at creation, so that
nothing but the current weights decides on them.  No law of addition is used.
-/

namespace DropTable.Cumulative

variable {α : Type} [Scalar α]

/-- The sum of weights from the left, on top of what comes before. -/
def sumFrom (before : α) (weights : List α) : α :=
  weights.foldl (· + ·) before

@[simp] theorem length_runningSums (before : α) (weights : List α) :
    (runningSums before weights).length = weights.length := by
  induction weights generalizing before with
  | nil => rfl
  | cons weight weights ih =>
      rw [runningSums, List.length_cons, ih, List.length_cons]

theorem runningSums_append (before : α) (weights more : List α) :
    runningSums before (weights ++ more) =
      runningSums before weights ++ runningSums (sumFrom before weights) more := by
  induction weights generalizing before with
  | nil => rfl
  | cons weight weights ih =>
      rw [List.cons_append, runningSums, runningSums, ih, List.cons_append]
      rfl

theorem take_runningSums (before : α) (weights : List α) (count : Nat) :
    (runningSums before weights).take count = runningSums before (weights.take count) := by
  induction weights generalizing before count with
  | nil => simp [runningSums]
  | cons weight weights ih =>
      cases count with
      | zero => rfl
      | succ count =>
          rw [runningSums, List.take_succ_cons, List.take_succ_cons, runningSums, ih]

theorem getLast?_runningSums (before : α) (weights : List α) :
    (runningSums before weights).getLast?.getD before = sumFrom before weights := by
  induction weights generalizing before with
  | nil => rfl
  | cons weight weights ih =>
      rw [runningSums, List.getLast?_cons, Option.getD_some, ih]
      rfl

theorem getElem?_runningSums {weights : List α} {index : Nat} (hindex : index < weights.length)
    (before : α) :
    (runningSums before weights)[index]? = some (sumFrom before (weights.take (index + 1))) := by
  induction weights generalizing before index with
  | nil => simp at hindex
  | cons weight weights ih =>
      cases index with
      | zero => rfl
      | succ index =>
          rw [runningSums, List.getElem?_cons_succ, ih (by simpa using hindex)]
          rfl

/-- The sums kept are those of the weights. -/
def Summed (c : Cumulative α) : Prop :=
  c.sums = runningSums 0 c.weights

theorem summed_ofWeights (weights : List α) : (ofWeights weights).Summed := rfl

theorem Summed.update {c : Cumulative α} (h : c.Summed) (index : Nat) (weight : α) :
    (c.update index weight).Summed := by
  unfold Cumulative.update
  split
  case isFalse => exact h
  case isTrue hindex =>
    let weights := c.weights.set index (Draw.effective weight)
    have hkept : c.sums.take index = runningSums 0 (weights.take index) := by
      rw [h, take_runningSums, List.take_set, List.set_eq_of_length_le (List.length_take_le _ _)]
    have hsums := runningSums_append 0 (weights.take index) (weights.drop index)
    rw [List.take_append_drop] at hsums
    change c.sums.take index ++ _ = runningSums 0 weights
    rw [hsums, hkept, getLast?_runningSums]

theorem Summed.total_eq {c : Cumulative α} (h : c.Summed) : c.total = sumFrom 0 c.weights := by
  rw [total, h, getLast?_runningSums]

theorem Summed.sumTo_eq {c : Cumulative α} (h : c.Summed) (index : Nat) :
    c.sumTo index = sumFrom 0 (c.weights.take (index + 1)) := by
  rw [sumTo, h.total_eq, h]
  by_cases hindex : index < c.weights.length
  · rw [getElem?_runningSums hindex, Option.getD_some]
  · have hpast : (runningSums 0 c.weights).length ≤ index := by
      rw [length_runningSums]
      omega
    rw [List.getElem?_eq_none hpast, Option.getD_none, List.take_of_length_le (by omega)]

end DropTable.Cumulative
