import DropTable.Sampler
/-!
# The slots of a sampler

Behind every sampler stands the list of its effective weights.  Building and updating are plain list
operations on this view, whatever is kept beside the weights.
-/

namespace DropTable

variable {α : Type}

namespace Cumulative

variable [Scalar α]

theorem weights_ofWeights (weights : List α) :
    (ofWeights weights).weights = weights.map Draw.effective := rfl

theorem weights_update (c : Cumulative α) (index : Nat) (weight : α) :
    (c.update index weight).weights = c.weights.set index (Draw.effective weight) := by
  unfold update
  split
  · rfl
  · rename_i hindex
    rw [List.set_eq_of_length_le (Nat.not_lt.1 hindex)]

end Cumulative

namespace Fenwick

variable [Scalar α]

theorem weights_update (f : Fenwick α) (index : Nat) (weight : α) :
    (f.update index weight).weights = f.weights.set index (Draw.effective weight) := by
  unfold update
  split
  · rfl
  · rename_i hnone
    rw [List.set_eq_of_length_le (List.getElem?_eq_none_iff.1 hnone)]

private theorem weights_foldl_update (done weights : List α) (f : Fenwick α)
    (hf : f.weights = done ++ List.replicate weights.length 0) :
    ((weights.zipIdx done.length).foldl
      (fun f (weight, index) => f.update index weight) f).weights =
      done ++ weights.map Draw.effective := by
  induction weights generalizing done f with
  | nil => simpa using hf
  | cons weight weights ih =>
      have hnext : (f.update done.length weight).weights =
          (done ++ [Draw.effective weight]) ++ List.replicate weights.length 0 := by
        rw [weights_update, hf, List.length_cons, List.replicate_succ]
        simp
      have hfilled := ih (done ++ [Draw.effective weight]) (f.update done.length weight) hnext
      rw [List.length_append, List.length_singleton] at hfilled
      rw [List.zipIdx_cons, List.foldl_cons, hfilled]
      simp

theorem weights_ofWeights (weights : List α) :
    (ofWeights weights).weights = weights.map Draw.effective := by
  exact weights_foldl_update [] weights (zeros weights.length) rfl

end Fenwick

namespace Sampler

/-- The effective weights behind a sampler. -/
def weights : Sampler α → List α
  | .cumulative c => c.weights
  | .fenwick f => f.weights
  | .aliasBuckets a => a.weights

/-- The way in which a sampler selects. -/
def strategy : Sampler α → Strategy
  | .cumulative _ => .cumulative
  | .fenwick _ => .fenwick
  | .aliasBuckets _ => .aliasBuckets

theorem weight?_eq (s : Sampler α) (index : Nat) : s.weight? index = s.weights[index]? := by
  cases s <;> rfl

theorem size_eq (s : Sampler α) : s.size = s.weights.length := by
  cases s <;> rfl

theorem supportsUpdate_iff (s : Sampler α) :
    s.supportsUpdate = true ↔ s.strategy ≠ .aliasBuckets := by
  cases s <;> simp [supportsUpdate, strategy]

variable [Scalar α]

@[simp] theorem strategy_build (strategy : Strategy) (weights : List α) :
    (build strategy weights).strategy = strategy := by
  cases strategy <;> rfl

@[simp] theorem weights_build (strategy : Strategy) (weights : List α) :
    (build strategy weights).weights = weights.map Draw.effective := by
  cases strategy with
  | cumulative => exact Cumulative.weights_ofWeights weights
  | fenwick => exact Fenwick.weights_ofWeights weights
  | aliasBuckets => rfl

@[simp] theorem strategy_update (s : Sampler α) (index : Nat) (weight : α) :
    (s.update index weight).strategy = s.strategy := by
  cases s <;> rfl

@[simp] theorem size_update (s : Sampler α) (index : Nat) (weight : α) :
    (s.update index weight).size = s.size := by
  cases s with
  | cumulative c => simp [update, size, Cumulative.size, Cumulative.weights_update]
  | fenwick f => simp [update, size, Fenwick.size, Fenwick.weights_update]
  | aliasBuckets a => rfl

theorem weights_update {s : Sampler α} (hs : s.strategy ≠ .aliasBuckets) (index : Nat)
    (weight : α) :
    (s.update index weight).weights = s.weights.set index (Draw.effective weight) := by
  cases s with
  | cumulative c => exact c.weights_update index weight
  | fenwick f => exact f.weights_update index weight
  | aliasBuckets a => exact absurd rfl hs

theorem update_aliasBuckets {s : Sampler α} (hs : s.strategy = .aliasBuckets) (index : Nat)
    (weight : α) : s.update index weight = s := by
  cases s with
  | cumulative c => contradiction
  | fenwick f => contradiction
  | aliasBuckets a => rfl

/-! ## Searches

Without buckets the draw alone selects, whether or not there are words to draw from. -/

theorem pick?_eq_map {s : Sampler α} (hs : s.strategy ≠ .aliasBuckets) (draw : α) :
    s.pick? draw =
      (s.select? draw).map fun index => ⟨index, Draw.residual s.total s.sumTo index draw⟩ := by
  cases s with
  | cumulative c => rfl
  | fenwick f => rfl
  | aliasBuckets a => exact absurd rfl hs

theorem selectWith_eq {s : Sampler α} (hs : s.strategy ≠ .aliasBuckets) (draw : α)
    (words : Words) : s.selectWith draw words = (s.select? draw, words) := by
  cases s with
  | cumulative c => rfl
  | fenwick f => rfl
  | aliasBuckets a => exact absurd rfl hs

theorem pickWith_eq {s : Sampler α} (hs : s.strategy ≠ .aliasBuckets) (draw : α)
    (words : Words) : s.pickWith draw words = (s.pick? draw, words) := by
  cases s with
  | cumulative c => rfl
  | fenwick f => rfl
  | aliasBuckets a => exact absurd rfl hs

/-! ## Runs of updates -/

/-- The sampler after updates of indices, the first update first. -/
def updateAll (s : Sampler α) (updates : List (Nat × α)) : Sampler α :=
  updates.foldl (fun s (index, weight) => s.update index weight) s

@[simp] theorem strategy_updateAll (s : Sampler α) (updates : List (Nat × α)) :
    (s.updateAll updates).strategy = s.strategy := by
  induction updates generalizing s with
  | nil => rfl
  | cons update updates ih => exact (ih _).trans (strategy_update s update.1 update.2)

/-- What updates make of a list of effective weights. -/
def revise (weights : List α) (updates : List (Nat × α)) : List α :=
  updates.foldl (fun weights (index, weight) => weights.set index (Draw.effective weight)) weights

theorem weights_updateAll {s : Sampler α} (hs : s.strategy ≠ .aliasBuckets)
    (updates : List (Nat × α)) : (s.updateAll updates).weights = revise s.weights updates := by
  induction updates generalizing s with
  | nil => rfl
  | cons update updates ih =>
      have hnext : (s.update update.1 update.2).strategy ≠ .aliasBuckets := by
        rw [strategy_update]
        exact hs
      calc (s.updateAll (update :: updates)).weights
          = ((s.update update.1 update.2).updateAll updates).weights := rfl
        _ = revise (s.update update.1 update.2).weights updates := ih hnext
        _ = revise s.weights (update :: updates) := by
            rw [weights_update hs]
            rfl

end Sampler

end DropTable
