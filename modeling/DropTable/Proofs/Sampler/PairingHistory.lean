import DropTable.Proofs.Sampler.Apportionment
/-!
# What the pairing has done so far

At every state that the pairing reaches, the indices whose buckets have been written and the indices
that are open are all indices, each of them once.  So every bucket is written at most once, and the
last two open indices are never both closed.  Over exact rationals the shares of the open indices
always add up to their number, and none but full buckets are left in the end.
-/

namespace DropTable

namespace Pairing

variable {α : Type} [Scalar α]

/-- The indices whose buckets the steps from these states write, in order. -/
def closings (before : List (Pairing α)) : List Nat :=
  before.filterMap fun p => p.write?.map Prod.fst

/-- What has come of the steps from some states. -/
structure Orderly (size : Nat) (before : List (Pairing α)) (p : Pairing α) : Prop where
  small_nodup : p.small.Nodup
  large_nodup : p.large.Nodup
  disjoint : p.small.Disjoint p.large
  lt_size : ∀ index ∈ p.opens, index < size
  closed : ∀ index < size, index ∉ p.opens → (closings before).count index = 1
  opened : ∀ index ∈ p.opens, index ∉ closings before ∧ p.buckets[index]? = some ⟨1, index⟩
  written : ∀ q ∈ before, ∃ closed share donor, q.write? = some (closed, ⟨share, donor⟩) ∧
    donor ≠ closed ∧ donor ∈ q.large ∧ p.buckets[closed]? = some ⟨share, donor⟩
  steps : before.length ≤ size - 1

/-- What every step keeps up: closed and open indices are all indices, each of them once. -/
structure Tracked (size : Nat) (before : List (Pairing α)) (p : Pairing α) : Prop where
  wired : p.Wired size
  indices : (closings before ++ p.opens).Perm (List.range size)
  written : ∀ q ∈ before, ∃ closed share donor, q.write? = some (closed, ⟨share, donor⟩) ∧
    donor ≠ closed ∧ donor ∈ q.large ∧ p.buckets[closed]? = some ⟨share, donor⟩
  steps : before.length ≤ size - 1

private theorem closings_concat {before : List (Pairing α)} {p : Pairing α} {index : Nat}
    {bucket : Bucket α} (h : p.write? = some (index, bucket)) :
    closings (before ++ [p]) = closings before ++ [index] := by
  simp [closings, h]

private theorem mem_closings {before : List (Pairing α)} {p : Pairing α} {index : Nat}
    {bucket : Bucket α}
    (hp : p ∈ before) (h : p.write? = some (index, bucket)) : index ∈ closings before :=
  List.mem_filterMap.2 ⟨p, hp, by rw [h]; rfl⟩

private theorem Tracked.length_closings {size : Nat} {before : List (Pairing α)} {p : Pairing α}
    (h : p.Tracked size before) : (closings before).length = before.length := by
  rw [closings, List.length_filterMap_eq_countP, List.countP_eq_length]
  intro q hq
  obtain ⟨closed, share, donor, hwrite, -⟩ := h.written q hq
  rw [hwrite]
  rfl

private theorem tracked_start (shares : List α) : (start shares).Tracked shares.length [] where
  wired := wired_start shares
  indices := perm_opens_start shares
  written := by simp
  steps := Nat.zero_le _

theorem Tracked.step {size : Nat} {before : List (Pairing α)} {p q : Pairing α}
    (h : p.Tracked size before) (hstep : p.step? = some q) : q.Tracked size (before ++ [p]) := by
  obtain ⟨closed, donor, hwrite, hcloses⟩ := h.wired.closes_of_step? hstep
  have hopen : closed ∈ p.opens := List.mem_append_left _ hcloses.closed_mem
  refine ⟨h.wired.step hcloses, ?_, ?_, ?_⟩
  · rw [closings_concat hwrite, List.append_assoc]
    exact (hcloses.opens.symm.append_left (closings before)).trans h.indices
  · intro earlier hearlier
    rw [hcloses.buckets]
    rcases List.mem_append.1 hearlier with hbefore | hlatest
    · -- A bucket that was written before is not that of an open index.
      obtain ⟨index, share, other, hwritten, hne, hlarge, hbucket⟩ := h.written earlier hbefore
      have hnodup := h.indices.nodup_iff.2 List.nodup_range
      have hdistinct : index ≠ closed :=
        (List.nodup_append.1 hnodup).2.2 index (mem_closings hbefore hwritten) closed hopen
      refine ⟨index, share, other, hwritten, hne, hlarge, ?_⟩
      rw [List.getElem?_set_ne hdistinct.symm]
      exact hbucket
    · cases List.mem_singleton.1 hlatest
      have hlt : closed < p.buckets.length := by
        rw [h.wired.buckets_length]
        exact h.wired.lt_size closed hopen
      exact ⟨closed, p.share closed, donor, hwrite, hcloses.donor_ne_closed h.wired,
        hcloses.donor_mem, List.getElem?_set_self hlt⟩
  · -- The donor is open still, so that at least two indices were open before.
    have hall := h.indices.length_eq
    have hleft := hcloses.opens.length_eq
    have hdonor := List.length_pos_of_mem hcloses.donor_open
    rw [List.length_append, h.length_closings, List.length_range] at hall
    rw [List.length_cons] at hleft
    rw [List.length_append, List.length_singleton]
    omega

theorem Tracked.of_reaches {size : Nat} {first p : Pairing α} {before : List (Pairing α)}
    (hfirst : first.Tracked size []) (h : first.Reaches before p) : p.Tracked size before := by
  induction h with
  | start => exact hfirst
  | step _ hstep ih => exact ih.step hstep

theorem Tracked.orderly {size : Nat} {before : List (Pairing α)} {p : Pairing α}
    (h : p.Tracked size before) : p.Orderly size before := by
  obtain ⟨hsmall, hlarge, hapart⟩ := List.nodup_append.1 h.wired.nodup
  have hnodup := h.indices.nodup_iff.2 List.nodup_range
  refine ⟨hsmall, hlarge, ?_, h.wired.lt_size, ?_, ?_, h.written, h.steps⟩
  · intro index hin hin'
    exact hapart index hin index hin' rfl
  · intro index hindex hclosed
    have hone := List.count_eq_one_of_mem List.nodup_range (List.mem_range.2 hindex)
    rw [← h.indices.count_eq, List.count_append, List.count_eq_zero_of_not_mem hclosed] at hone
    exact hone
  · intro index hopen
    refine ⟨?_, h.wired.bucket index hopen⟩
    intro hclosed
    exact (List.nodup_append.1 hnodup).2.2 index hclosed index hopen rfl

end Pairing

namespace Alias

/-- The pairing that fills buckets for effective weights, before its first step. -/
def opening {α : Type} [Scalar α] (weights : List α) (total : α) : Pairing α :=
  Pairing.start (weights.map fun w => w * Scalar.ofNat weights.length / total)

private theorem tracked_opening {α : Type} [Scalar α] (weights : List α) (total : α) :
    (opening weights total).Tracked weights.length [] := by
  have htracked := Pairing.tracked_start
    (weights.map fun w => w * Scalar.ofNat weights.length / total)
  rwa [List.length_map] at htracked

private theorem opening_eq (weights : List Rat) :
    opening weights (Scalar.sum weights) = Pairing.start (goal weights) := by
  rw [scalar_sum_eq]
  rfl

private theorem balanced_of_reaches {weights : List Rat} (hnonneg : ∀ w ∈ weights, 0 ≤ w)
    (hpositive : 0 < weights.sum) {before : List (Pairing Rat)} {p : Pairing Rat}
    (h : (opening weights (Scalar.sum weights)).Reaches before p) : p.Balanced (goal weights) := by
  rw [opening_eq] at h
  obtain ⟨-, hbalanced⟩ := h.keeps (fun _ _ _ _ hwired hcloses hp => hp.step hwired hcloses)
    (wired_goal weights) (balanced_goal hnonneg hpositive)
  exact hbalanced

/-- Whatever is computed and however it is compared, the pairing keeps its indices in order at
every step.  Over exact rationals, the shares that are left always add up to the number of open
indices, so that the run ends with full buckets and strands no index. -/
theorem orderly_opening :
    (∀ (α : Type) [Scalar α] (weights : List α) (total : α),
      (∀ p q : Pairing α, p.step? = some q → ∃ index bucket,
        p.write? = some (index, bucket) ∧ q.buckets = p.buckets.set index bucket) ∧
      (∀ before p, (opening weights total).Reaches before p → p.Orderly weights.length before) ∧
      (∃ before, (opening weights total).Reaches before (opening weights total).run) ∧
      (opening weights total).run.step? = none) ∧
    ∀ weights : List Rat, 0 < Scalar.sum (weights.map Draw.effective) →
      let effective := weights.map Draw.effective
      let first := opening effective (Scalar.sum effective)
      (∀ before p, first.Reaches before p → (p.opens.map p.share).sum = p.opens.length) ∧
      first.run.small = [] ∧ (∀ index ∈ first.run.large, first.run.share index = 1) ∧
      (ofWeights weights).buckets = first.run.buckets := by
  refine ⟨?_, ?_⟩
  · intro α _ weights total
    obtain ⟨hreaches, hend⟩ := Pairing.reaches_run (opening weights total)
    refine ⟨fun _ _ => Pairing.exists_write, ?_, hreaches, hend⟩
    intro before p hreaches
    exact ((tracked_opening weights total).of_reaches hreaches).orderly
  · intro weights hpositive effective first
    have hbuckets : (ofWeights weights).buckets =
        fillBuckets effective (Scalar.sum effective) := if_pos hpositive
    rw [scalar_sum_eq] at hpositive
    have hnonneg : ∀ w ∈ effective, 0 ≤ w := Draw.map_effective_nonneg weights
    obtain ⟨⟨before, hrun⟩, hend⟩ := Pairing.reaches_run first
    have hbalanced := balanced_of_reaches hnonneg hpositive hrun
    refine ⟨?_, hbalanced.small_eq_nil hend, hbalanced.share_eq_one hend, ?_⟩
    · intro before p hreaches
      exact (balanced_of_reaches hnonneg hpositive hreaches).average
    · rw [hbuckets, scalar_sum_eq, fillBuckets_eq hnonneg hpositive, ← opening_eq]

/-- Four weights after the first of their steps, and in the end. -/
theorem orderly_opening_four :
    let weights : List Rat := [1, 2, 3, 4]
    let effective := weights.map Draw.effective
    let first := opening effective (Scalar.sum effective)
    0 < Scalar.sum effective ∧
      (∃ p, first.Reaches [first] p ∧ p.Orderly 4 [first] ∧
        (p.opens.map p.share).sum = p.opens.length) ∧
      first.run.small = [] ∧ (∀ index ∈ first.run.large, first.run.share index = 1) ∧
      (ofWeights weights).buckets = first.run.buckets := by
  intro weights effective first
  have hpositive : 0 < Scalar.sum effective := by decide +kernel
  obtain ⟨p, hp⟩ : ∃ p, first.step? = some p := Option.isSome_iff_exists.1 (by decide +kernel)
  have hreaches : first.Reaches [first] p := .step .start hp
  obtain ⟨hgeneral, hexact⟩ := orderly_opening
  obtain ⟨-, horderly, -, -⟩ := hgeneral Rat effective (Scalar.sum effective)
  obtain ⟨haverage, hend⟩ := hexact weights hpositive
  exact ⟨hpositive, ⟨p, hreaches, horderly _ p hreaches, haverage _ p hreaches⟩, hend⟩

end Alias

end DropTable
