import Mathlib.Algebra.BigOperators.Group.List.Basic
import Mathlib.Algebra.Order.BigOperators.Group.List
import Mathlib.Algebra.Order.Ring.Rat
import Mathlib.Data.List.GetD
import Mathlib.Tactic.Linarith
import Mathlib.Tactic.Ring
import DropTable.Proofs.Sampler.Draws
import DropTable.Proofs.Sampler.Pairing
/-!
# The pairing preserves mass

Over exact rationals the buckets and what is left of the shares add up to the first shares at every
step, index by index.  The shares of the open indices have an average of one throughout, so that the
run ends with large indices only, each with exactly one bucket left for itself.
-/

namespace DropTable

theorem map_range_eq {β : Type} {xs : List β} {f : Nat → β}
    (hf : ∀ index (hindex : index < xs.length), f index = xs[index]) :
    (List.range xs.length).map f = xs := by
  apply List.ext_getElem (by simp)
  intro index _ hindex
  rw [List.getElem_map, List.getElem_range, hf index hindex]

/-- The mass of an index in the buckets: the share of its own bucket, and the rest of every bucket
whose other index it is. -/
def bucketMass (buckets : List (Bucket Rat)) (index : Nat) : Rat :=
  (buckets.getD index ⟨1, index⟩).share +
    (buckets.map fun bucket => if bucket.other = index then 1 - bucket.share else 0).sum

private theorem bucketMass_set {buckets : List (Bucket Rat)} {closed : Nat}
    (hclosed : buckets[closed]? = some ⟨1, closed⟩) (share : Rat) (donor index : Nat) :
    bucketMass (buckets.set closed ⟨share, donor⟩) index =
      bucketMass buckets index + (if index = closed then share - 1 else 0) +
        if index = donor then 1 - share else 0 := by
  obtain ⟨hlt, hbucket⟩ := List.getElem?_eq_some_iff.1 hclosed
  have hown : ((buckets.set closed ⟨share, donor⟩).getD index ⟨1, index⟩).share =
      (buckets.getD index ⟨1, index⟩).share + if index = closed then share - 1 else 0 := by
    rw [List.getD_eq_getElem?_getD, List.getD_eq_getElem?_getD]
    by_cases hindex : index = closed
    · rw [hindex, List.getElem?_set_self hlt, hclosed, if_pos rfl, Option.getD_some,
        Option.getD_some]
      ring
    · rw [List.getElem?_set_ne (Ne.symm hindex), if_neg hindex, add_zero]
  have hrest : ((buckets.set closed ⟨share, donor⟩).map fun bucket =>
        if bucket.other = index then 1 - bucket.share else 0).sum =
      (buckets.map fun bucket => if bucket.other = index then 1 - bucket.share else 0).sum +
        if index = donor then 1 - share else 0 := by
    have hlength : closed < (buckets.map fun bucket =>
        if bucket.other = index then 1 - bucket.share else 0).length := by
      rw [List.length_map]
      exact hlt
    rw [List.map_set, List.sum_set', dif_pos hlength, List.getElem_map, hbucket]
    by_cases hdonor : donor = index
    · simp [hdonor]
    · simp [hdonor, Ne.symm hdonor]
  rw [bucketMass, bucketMass, hown, hrest]
  ring

namespace Pairing

/-- Mass that is not in the buckets yet: what an open index has beyond the bucket that it keeps. -/
def pending (p : Pairing Rat) (index : Nat) : Rat :=
  if index ∈ p.opens then p.share index - 1 else 0

/-- What the pairing keeps up for the shares that it has started from. -/
structure Balanced (goal : List Rat) (p : Pairing Rat) : Prop where
  mass : ∀ index, index < goal.length →
    bucketMass p.buckets index + p.pending index = goal.getD index 0
  small : ∀ index ∈ p.small, p.share index < 1
  large : ∀ index ∈ p.large, 1 ≤ p.share index
  nonneg : ∀ index ∈ p.opens, 0 ≤ p.share index
  buckets : ∀ bucket ∈ p.buckets, 0 ≤ bucket.share ∧ bucket.share ≤ 1
  average : (p.opens.map p.share).sum = p.opens.length

private theorem Closes.mass_eq {p q : Pairing Rat} {size closed donor : Nat} (h : p.Wired size)
    (hcloses : Closes p q closed donor) (index : Nat) :
    bucketMass q.buckets index + q.pending index =
      bucketMass p.buckets index + p.pending index := by
  have hopen : closed ∈ p.opens := List.mem_append_left _ hcloses.closed_mem
  have hne := hcloses.donor_ne_closed h
  rw [hcloses.buckets, bucketMass_set (h.bucket closed hopen), pending, pending,
    hcloses.share_eq h]
  simp only [hcloses.mem_opens_iff h]
  -- The closed index trades what was pending for its bucket, and the donor does the opposite.
  by_cases hclosed : index = closed
  · have hdonor : index ≠ donor := by
      rw [hclosed]
      exact hne.symm
    simp [hclosed, hopen, hne.symm]
  · by_cases hdonor : index = donor
    · have hdonor_open := ((hcloses.mem_opens_iff h).1 hcloses.donor_open).1
      simp [hdonor, hne, hdonor_open]
      ring
    · simp [hclosed, hdonor]

theorem Closes.average {p q : Pairing Rat} {size closed donor : Nat} (h : p.Wired size)
    (hcloses : Closes p q closed donor) (haverage : (p.opens.map p.share).sum = p.opens.length) :
    (q.opens.map q.share).sum = q.opens.length := by
  have hcount : q.opens.count donor = 1 :=
    List.count_eq_one_of_mem (h.step hcloses).nodup hcloses.donor_open
  have hchange : (q.opens.map q.share).sum =
      p.share closed - 1 + (q.opens.map p.share).sum := by
    rw [funext (hcloses.share_eq h), List.sum_map_ite_eq, hcount, one_nsmul]
    ring
  have hbefore : (p.opens.map p.share).sum = p.share closed + (q.opens.map p.share).sum := by
    rw [(hcloses.opens.map p.share).sum_eq, List.map_cons, List.sum_cons]
  have hlength : (p.opens.length : Rat) = q.opens.length + 1 := by
    rw [hcloses.opens.length_eq, List.length_cons, Nat.cast_succ]
  calc (q.opens.map q.share).sum
      = (p.opens.map p.share).sum - 1 := by
        rw [hchange, hbefore]
        ring
    _ = q.opens.length := by
        rw [haverage, hlength, add_sub_cancel_right]

theorem Balanced.step {goal : List Rat} {p q : Pairing Rat} {size closed donor : Nat}
    (hwired : p.Wired size) (hcloses : Closes p q closed donor) (h : p.Balanced goal) :
    q.Balanced goal := by
  have hshare := hcloses.share_eq hwired
  have hclosed_open : closed ∈ p.opens := List.mem_append_left _ hcloses.closed_mem
  have hclosed_lt := h.small closed hcloses.closed_mem
  have hclosed_nonneg := h.nonneg closed hclosed_open
  have hdonor_le := h.large donor hcloses.donor_mem
  refine ⟨?_, ?_, ?_, ?_, ?_, ?_⟩
  · intro index hindex
    rw [hcloses.mass_eq hwired, h.mass index hindex]
  · intro index hindex
    have hsmall := hcloses.small index hindex
    rw [hshare]
    by_cases hdonor : index = donor
    · rw [if_pos hdonor] at hsmall ⊢
      exact hsmall
    · rw [if_neg hdonor] at hsmall ⊢
      exact h.small index hsmall
  · intro index hindex
    have hlarge := hcloses.large index hindex
    rw [hshare]
    by_cases hdonor : index = donor
    · rw [if_pos hdonor] at hlarge ⊢
      exact not_lt.1 hlarge
    · rw [if_neg hdonor] at hlarge ⊢
      exact h.large index hlarge
  · intro index hindex
    rw [hshare]
    by_cases hdonor : index = donor
    · rw [if_pos hdonor]
      linarith
    · rw [if_neg hdonor]
      exact h.nonneg index ((hcloses.mem_opens_iff hwired).1 hindex).1
  · intro bucket hbucket
    rw [hcloses.buckets] at hbucket
    rcases List.mem_or_eq_of_mem_set hbucket with hold | rfl
    · exact h.buckets bucket hold
    · exact ⟨hclosed_nonneg, le_of_lt hclosed_lt⟩
  · exact hcloses.average hwired h.average

theorem balanced_start {goal : List Rat} (hnonneg : ∀ share ∈ goal, 0 ≤ share)
    (hsum : goal.sum = goal.length) : (start goal).Balanced goal := by
  have hmem : ∀ index, index ∈ (start goal).opens ↔ index < goal.length := by
    intro index
    rw [(perm_opens_start goal).mem_iff, List.mem_range]
  refine ⟨?_, ?_, ?_, ?_, ?_, ?_⟩
  · intro index hindex
    have hmass : bucketMass (start goal).buckets index = 1 := by
      simp [bucketMass, start, hindex, Function.comp_def]
    rw [hmass, pending, if_pos ((hmem index).2 hindex)]
    exact add_sub_cancel 1 (goal.getD index 0)
  · intro index hindex
    exact of_decide_eq_true (List.mem_filter.1 hindex).2
  · intro index hindex
    have hlarge := (List.mem_filter.1 hindex).2
    rw [Bool.not_eq_true', decide_eq_false_iff_not] at hlarge
    exact not_lt.1 hlarge
  · intro index hindex
    have hlt := (hmem index).1 hindex
    rw [share, start, List.getD_eq_getElem _ _ hlt]
    exact hnonneg _ (List.getElem_mem hlt)
  · intro bucket hbucket
    obtain ⟨index, -, rfl⟩ := List.mem_map.1 hbucket
    norm_num
  · have hshares : (List.range goal.length).map (start goal).share = goal := by
      apply map_range_eq
      intro index hindex
      exact List.getD_eq_getElem _ _ hindex
    rw [((perm_opens_start goal).map (start goal).share).sum_eq, hshares, hsum,
      (perm_opens_start goal).length_eq, List.length_range]

/-! ## The end of the run -/

private theorem sum_lt_length {xs : List Nat} {f : Nat → Rat} (hne : xs ≠ [])
    (hf : ∀ x ∈ xs, f x < 1) :
    (xs.map f).sum < xs.length := by
  have hlt := List.sum_lt_sum_of_ne_nil hne f (fun _ => 1) hf
  simpa using hlt

private theorem eq_one_of_sum_eq_length {xs : List Nat} {f : Nat → Rat} (hf : ∀ x ∈ xs, 1 ≤ f x)
    (hsum : (xs.map f).sum = xs.length) : ∀ x ∈ xs, f x = 1 := by
  intro x hx
  by_contra hne
  have hlt := List.sum_lt_sum (fun _ => 1) f hf ⟨x, hx, lt_of_le_of_ne (hf x hx) (Ne.symm hne)⟩
  simp [hsum] at hlt

theorem Balanced.small_eq_nil {goal : List Rat} {p : Pairing Rat} (h : p.Balanced goal)
    (hend : p.step? = none) : p.small = [] := by
  rcases small_or_large_eq_nil hend with hsmall | hlarge
  · exact hsmall
  · by_contra hne
    have hlt := sum_lt_length hne h.small
    have haverage := h.average
    rw [opens, hlarge, List.append_nil] at haverage
    rw [haverage] at hlt
    exact lt_irrefl _ hlt

theorem Balanced.share_eq_one {goal : List Rat} {p : Pairing Rat} (h : p.Balanced goal)
    (hend : p.step? = none) : ∀ index ∈ p.large, p.share index = 1 := by
  have haverage := h.average
  rw [opens, h.small_eq_nil hend, List.nil_append] at haverage
  exact eq_one_of_sum_eq_length h.large haverage

theorem Balanced.pending_eq_zero {goal : List Rat} {p : Pairing Rat} (h : p.Balanced goal)
    (hend : p.step? = none) (index : Nat) : p.pending index = 0 := by
  unfold pending
  by_cases hopen : index ∈ p.opens
  · rw [if_pos hopen]
    rw [opens, h.small_eq_nil hend, List.nil_append] at hopen
    rw [h.share_eq_one hend index hopen, sub_self]
  · rw [if_neg hopen]

end Pairing

end DropTable
