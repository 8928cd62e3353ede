import Mathlib.Algebra.BigOperators.Ring.List
import DropTable.Proofs.Random
import DropTable.Proofs.Sampler.Parts
import DropTable.Proofs.Sampler.PrefixSums
/-!
# Buckets apportion draws by weight

Over exact rationals the buckets hold for every index as much mass as its weight has of the total,
counted in buckets.  The draws that select an index are its parts of the buckets, end to end with
all others, and their lengths add up to the index's share of the total.  The same holds of the coins
when every bucket is as likely as any other.
-/

namespace DropTable.Alias

/-- What buckets make of draws and coins. -/
structure Apportions (a : Alias Rat) (weights : List Rat) : Prop where
  length : a.buckets.length = weights.length
  share_mem : ∀ b ∈ a.buckets, 0 ≤ b.share ∧ b.share ≤ 1
  mass : ∀ index, (hindex : index < weights.length) →
    bucketMass a.buckets index = weights.length * weights[index] / weights.sum
  /-- The parts lie end to end on the draws, in the order of the buckets. -/
  ordered : a.parts.Pairwise fun p q => p.stop a.buckets.length ≤ q.start a.buckets.length
  select?_eq_some : ∀ draw index, 0 ≤ draw → draw < 1 →
    ((Sampler.aliasBuckets a).select? draw = some index ↔ ∃ p ∈ a.parts, p.index = index ∧
      p.start a.buckets.length ≤ draw ∧ draw < p.stop a.buckets.length)
  draws : ∀ index, (hindex : index < weights.length) →
    (a.parts.map fun p => if p.index = index then
      p.stop a.buckets.length - p.start a.buckets.length else 0).sum = weights[index] / weights.sum
  pick? : ∀ p ∈ a.parts, ∀ draw,
    p.start a.buckets.length ≤ draw → draw < p.stop a.buckets.length →
    a.pick? draw = some ⟨p.index, p.residual (draw * a.buckets.length - p.bucket)⟩
  /-- With a source of words, they decide on the bucket, and the draw is the coin. -/
  pickWith : ∀ coin words, 0 ≤ coin → coin < 1 →
    (words.below a.buckets.length).1 < a.buckets.length ∧
      a.pickWith coin words = (some (a.toss (words.below a.buckets.length).1 coin),
        (words.below a.buckets.length).2)
  toss_index : ∀ bucket index coin, bucket < a.buckets.length → 0 ≤ coin → coin < 1 →
    ((a.toss bucket coin).index = index ↔
      ∃ p ∈ a.parts, p.bucket = bucket ∧ p.index = index ∧ p.low ≤ coin ∧ coin < p.high)
  toss : ∀ p ∈ a.parts, ∀ coin, p.low ≤ coin → coin < p.high →
    a.toss p.bucket coin = ⟨p.index, p.residual coin⟩
  /-- The coins that select an index, averaged over the buckets. -/
  coins : ∀ index, (hindex : index < weights.length) →
    ((List.range a.buckets.length).map fun bucket => 1 / (a.buckets.length : Rat) *
      (a.parts.map fun p => if p.bucket = bucket ∧ p.index = index then p.length else 0).sum).sum =
      weights[index] / weights.sum

theorem scalar_sum_eq (xs : List Rat) : Scalar.sum xs = xs.sum := by
  rw [Scalar.sum, neg_zero]
  exact List.sum_eq_foldl.symm

/-- The shares of the total that the pairing starts from, counted in buckets. -/
def goal (weights : List Rat) : List Rat :=
  weights.map fun w => w * weights.length / weights.sum

private theorem sum_goal {weights : List Rat} (hpositive : 0 < weights.sum) :
    (goal weights).sum = (goal weights).length := by
  have hgoal : goal weights = weights.map fun w => w * (weights.length / weights.sum) :=
    List.map_congr_left fun w _ => mul_div_assoc w _ _
  calc (goal weights).sum
      = weights.sum * (weights.length / weights.sum) := by
        rw [hgoal, List.sum_map_mul_right, List.map_id']
    _ = weights.length := mul_div_cancel₀ _ (ne_of_gt hpositive)
    _ = (goal weights).length := by
        rw [goal, List.length_map]

theorem wired_goal (weights : List Rat) :
    (Pairing.start (goal weights)).Wired weights.length := by
  have hwired := Pairing.wired_start (goal weights)
  rwa [goal, List.length_map, ← goal] at hwired

section Filled

variable {weights : List Rat} (hnonneg : ∀ w ∈ weights, 0 ≤ w) (hpositive : 0 < weights.sum)
include hnonneg hpositive

theorem balanced_goal : (Pairing.start (goal weights)).Balanced (goal weights) := by
  have hshares : ∀ share ∈ goal weights, 0 ≤ share := by
    intro share hshare
    obtain ⟨w, hw, rfl⟩ := List.mem_map.1 hshare
    exact div_nonneg (mul_nonneg (hnonneg w hw) (Nat.cast_nonneg _)) (le_of_lt hpositive)
  exact Pairing.balanced_start hshares (sum_goal hpositive)

private theorem run_goal :
    (Pairing.start (goal weights)).run.Wired weights.length ∧
      (Pairing.start (goal weights)).run.Balanced (goal weights) ∧
      (Pairing.start (goal weights)).run.step? = none :=
  Pairing.run_induction (fun _ _ _ _ hwired hcloses h => h.step hwired hcloses)
    (wired_goal weights) (balanced_goal hnonneg hpositive)

theorem fillBuckets_eq :
    fillBuckets weights weights.sum = (Pairing.start (goal weights)).run.buckets := by
  obtain ⟨-, hbalanced, hend⟩ := run_goal hnonneg hpositive
  have hsmall := hbalanced.small_eq_nil hend
  change List.foldl _ (Pairing.start (goal weights)).run.buckets
    ((Pairing.start (goal weights)).run.small.filter _) = _
  rw [hsmall]
  rfl

private theorem length_fillBuckets : (fillBuckets weights weights.sum).length = weights.length := by
  obtain ⟨hwired, -, -⟩ := run_goal hnonneg hpositive
  rw [fillBuckets_eq hnonneg hpositive]
  exact hwired.buckets_length

private theorem share_mem_fillBuckets :
    ∀ b ∈ fillBuckets weights weights.sum, 0 ≤ b.share ∧ b.share ≤ 1 := by
  obtain ⟨-, hbalanced, -⟩ := run_goal hnonneg hpositive
  rw [fillBuckets_eq hnonneg hpositive]
  exact hbalanced.buckets

theorem bucketMass_fillBuckets {index : Nat} (hindex : index < weights.length) :
    bucketMass (fillBuckets weights weights.sum) index =
      weights.length * weights[index] / weights.sum := by
  obtain ⟨-, hbalanced, hend⟩ := run_goal hnonneg hpositive
  have hgoal : index < (goal weights).length := by
    rw [goal, List.length_map]
    exact hindex
  have hmass := hbalanced.mass index hgoal
  rw [hbalanced.pending_eq_zero hend, add_zero, List.getD_eq_getElem _ _ hgoal] at hmass
  rw [fillBuckets_eq hnonneg hpositive, hmass]
  simp only [goal, List.getElem_map]
  rw [mul_comm weights[index]]

end Filled

private theorem stop_sub_start (size : Nat) (p : Part) :
    p.stop size - p.start size = p.length * (1 / size) := by
  rw [Part.stop, Part.start, Part.length]
  ring

theorem Proper.apportions {a : Alias Rat} {weights : List Rat} (h : a.Proper)
    (hne : a.buckets ≠ []) (hlength : a.buckets.length = weights.length)
    (hmass : ∀ index, (hindex : index < weights.length) →
      bucketMass a.buckets index = weights.length * weights[index] / weights.sum) :
    a.Apportions weights := by
  have hsize : (a.buckets.length : Rat) ≠ 0 := by
    rw [Nat.cast_ne_zero]
    exact (List.length_pos_of_ne_nil hne).ne'
  have hshare : ∀ index, (hindex : index < weights.length) →
      bucketMass a.buckets index * (1 / a.buckets.length) = weights[index] / weights.sum := by
    intro index hindex
    calc bucketMass a.buckets index * (1 / a.buckets.length)
        = a.buckets.length * weights[index] / weights.sum * (1 / a.buckets.length) := by
          rw [hmass index hindex, hlength]
      _ = a.buckets.length * (weights[index] / weights.sum) / a.buckets.length := by
          rw [mul_div_assoc, mul_one_div]
      _ = weights[index] / weights.sum := mul_div_cancel_left₀ _ hsize
  refine ⟨hlength, h, hmass, h.pairwise_parts, ?_, ?_, ?_, ?_, ?_, ?_, ?_⟩
  · intro draw index hlow hhigh
    exact select?_eq_some_iff h hne hlow hhigh
  · intro index hindex
    have hscaled : ∀ p : Part,
        (if p.index = index then p.stop a.buckets.length - p.start a.buckets.length else 0) =
          (if p.index = index then p.length else 0) * (1 / a.buckets.length) := by
      intro p
      rw [stop_sub_start, ite_mul, zero_mul]
    simp only [hscaled]
    rw [List.sum_map_mul_right, sum_length_index (by omega)]
    exact hshare index hindex
  · intro p hp draw hlow hhigh
    exact pick?_of_mem h hp hlow hhigh
  · intro coin words hlow hhigh
    have hanswers : a.answers coin = true := by simp [answers, Scalar.isNaN, hne]
    refine ⟨Words.below_lt (List.length_pos_of_ne_nil hne) words, ?_⟩
    rw [pickWith, if_pos hanswers, Draw.clamp_of_mem hlow (le_of_lt hhigh)]
  · intro bucket index coin hbucket hlow hhigh
    exact toss_index_iff hbucket hlow hhigh
  · intro p hp coin hlow hhigh
    exact toss_eq hp hlow hhigh
  · intro index hindex
    have hbucket : ∀ bucket ∈ List.range a.buckets.length, 1 / (a.buckets.length : Rat) *
        (a.parts.map fun p => if p.bucket = bucket ∧ p.index = index then p.length else 0).sum =
          a.massIn index bucket * (1 / a.buckets.length) := by
      intro bucket hmem
      rw [sum_length_bucket (List.mem_range.1 hmem), mul_comm]
    rw [List.map_congr_left hbucket, List.sum_map_mul_right, sum_massIn (by omega)]
    exact hshare index hindex

theorem apportions_ofWeights (weights : List Rat)
    (hpositive : 0 < (weights.map Draw.effective).sum) :
    (ofWeights weights).Apportions (weights.map Draw.effective) := by
  have hnonneg := Draw.map_effective_nonneg weights
  have hbuckets : (ofWeights weights).buckets =
      fillBuckets (weights.map Draw.effective) (weights.map Draw.effective).sum := by
    simp only [ofWeights, scalar_sum_eq]
    rw [if_pos hpositive]
  have hlength := length_fillBuckets hnonneg hpositive
  rw [← hbuckets] at hlength
  apply Proper.apportions
  · rw [Proper, hbuckets]
    exact share_mem_fillBuckets hnonneg hpositive
  · rw [← List.length_pos_iff, hlength]
    exact List.length_pos_of_sum_pos _ hpositive
  · exact hlength
  · rw [hbuckets]
    exact fun index hindex => bucketMass_fillBuckets hnonneg hpositive hindex

/-- Four weights with one, two, three and four parts in ten. -/
theorem apportions_ofWeights_four :
    (0 : Rat) < (([1, 2, 3, 4] : List Rat).map Draw.effective).sum ∧
      (ofWeights [1, 2, 3, 4]).Apportions (([1, 2, 3, 4] : List Rat).map Draw.effective) := by
  have hpositive : (0 : Rat) < (([1, 2, 3, 4] : List Rat).map Draw.effective).sum := by
    norm_num [Draw.effective, Scalar.isFinite]
  exact ⟨hpositive, apportions_ofWeights [1, 2, 3, 4] hpositive⟩

end DropTable.Alias
