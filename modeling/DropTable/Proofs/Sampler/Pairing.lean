import Mathlib.Data.List.Nodup
import Mathlib.Data.List.Perm.Basic
import DropTable.Sampler.Alias
/-!
# The pairing of small and large indices

Every step of the pairing closes one small index for good and leaves all other indices open.  An
open index has its bucket for itself, so that a bucket is written once at most.  Nothing here
depends on what is computed or on how it is compared.
-/

namespace DropTable.Pairing

variable {α : Type}

/-- The indices whose buckets are still to be decided on. -/
def opens (p : Pairing α) : List Nat :=
  p.small ++ p.large

variable [Scalar α]

/-- What the next step writes: a bucket of the latest small index and the latest large one, in the
place of the small one. -/
def write? (p : Pairing α) : Option (Nat × Bucket α) :=
  match p.small, p.large with
  | closed :: _, donor :: _ => some (closed, ⟨p.share closed, donor⟩)
  | _, _ => none

/-- Steps lead from the first state to another one, each from the next of the states before. -/
inductive Reaches (first : Pairing α) : List (Pairing α) → Pairing α → Prop
  | start : Reaches first [] first
  | step {before p q} : Reaches first before p → p.step? = some q → Reaches first (before ++ [p]) q

/-- Open indices are different positions, each with a bucket for itself. -/
structure Wired (p : Pairing α) (size : Nat) : Prop where
  shares_length : p.shares.length = size
  buckets_length : p.buckets.length = size
  nodup : p.opens.Nodup
  lt_size : ∀ index ∈ p.opens, index < size
  bucket : ∀ index ∈ p.opens, p.buckets[index]? = some ⟨1, index⟩

/-- What a step does: a small index is closed with a bucket that it shares with a large one, and the
large one gives up what the small one lacks. -/
structure Closes (p q : Pairing α) (closed donor : Nat) : Prop where
  closed_mem : closed ∈ p.small
  donor_mem : donor ∈ p.large
  opens : p.opens.Perm (closed :: q.opens)
  donor_open : donor ∈ q.opens
  shares : q.shares = p.shares.set donor (p.share donor + p.share closed - 1)
  buckets : q.buckets = p.buckets.set closed ⟨p.share closed, donor⟩
  small : ∀ index ∈ q.small,
    if index = donor then p.share donor + p.share closed - 1 < 1 else index ∈ p.small
  large : ∀ index ∈ q.large,
    if index = donor then ¬ p.share donor + p.share closed - 1 < 1 else index ∈ p.large

/-- A step takes the latest indices of both kinds, and puts the large one back where it belongs. -/
theorem step?_cases {p q : Pairing α} (h : p.step? = some q) :
    ∃ closed small donor large, p.small = closed :: small ∧ p.large = donor :: large ∧
      q.shares = p.shares.set donor (p.share donor + p.share closed - 1) ∧
      q.buckets = p.buckets.set closed ⟨p.share closed, donor⟩ ∧
      ((p.share donor + p.share closed - 1 < 1 ∧ q.small = donor :: small ∧ q.large = large) ∨
        (¬ p.share donor + p.share closed - 1 < 1 ∧ q.small = small ∧
          q.large = donor :: large)) := by
  unfold step? at h
  split at h
  case h_1 closed small donor large hsmall hlarge =>
    simp only [Option.some.injEq] at h
    subst h
    refine ⟨closed, small, donor, large, hsmall, hlarge, rfl, rfl, ?_⟩
    by_cases hlt : p.share donor + p.share closed - 1 < 1
    · exact .inl ⟨hlt, if_pos hlt, if_pos hlt⟩
    · exact .inr ⟨hlt, if_neg hlt, if_neg hlt⟩
  case h_2 => contradiction

theorem exists_write {p q : Pairing α} (h : p.step? = some q) :
    ∃ index bucket, p.write? = some (index, bucket) ∧ q.buckets = p.buckets.set index bucket := by
  obtain ⟨closed, small, donor, large, hsmall, hlarge, -, hbuckets, -⟩ := step?_cases h
  refine ⟨closed, ⟨p.share closed, donor⟩, ?_, hbuckets⟩
  simp only [write?, hsmall, hlarge]

section Stays

variable {before after : List Nat} {donor : Nat} {P : Prop}

private theorem stays_of_returned (hdonor : P) (h : after ⊆ before) :
    ∀ index ∈ donor :: after, if index = donor then P else index ∈ before := by
  intro index hindex
  by_cases heq : index = donor
  · rw [if_pos heq]
    exact hdonor
  · rw [if_neg heq]
    exact h (List.mem_of_ne_of_mem heq hindex)

private theorem stays_of_fresh (hfresh : donor ∉ after) (h : after ⊆ before) :
    ∀ index ∈ after, if index = donor then P else index ∈ before := by
  intro index hindex
  have hne : index ≠ donor := fun heq => hfresh (heq ▸ hindex)
  rw [if_neg hne]
  exact h hindex

end Stays

theorem Wired.closes_of_step? {p q : Pairing α} {size : Nat} (h : p.Wired size)
    (hstep : p.step? = some q) :
    ∃ closed donor, p.write? = some (closed, ⟨p.share closed, donor⟩) ∧
      Closes p q closed donor := by
  obtain ⟨closed, small, donor, large, hsmall, hlarge, hshares, hbuckets, hmoved⟩ :=
    step?_cases hstep
  have hopens : p.opens = closed :: small ++ donor :: large := by
    rw [Pairing.opens, hsmall, hlarge]
  have hnodup := h.nodup
  rw [hopens, List.nodup_append] at hnodup
  have hfresh : donor ∉ large := (List.nodup_cons.1 hnodup.2.1).1
  have hother : donor ∉ small := by
    intro hmem
    exact hnodup.2.2 donor (List.mem_cons_of_mem _ hmem) donor List.mem_cons_self rfl
  have hclosed : closed ∈ p.small := by
    rw [hsmall]
    exact List.mem_cons_self
  have hdonor : donor ∈ p.large := by
    rw [hlarge]
    exact List.mem_cons_self
  have hwrite : p.write? = some (closed, ⟨p.share closed, donor⟩) := by
    simp only [write?, hsmall, hlarge]
  refine ⟨closed, donor, hwrite, ?_⟩
  rcases hmoved with ⟨hlt, hsmall', hlarge'⟩ | ⟨hlt, hsmall', hlarge'⟩
  -- The donor goes back to the small indices or to the large ones, and nothing else moves.
  · refine ⟨hclosed, hdonor, ?_, ?_, hshares, hbuckets, ?_, ?_⟩
    · rw [hopens, Pairing.opens, hsmall', hlarge']
      exact List.perm_middle.cons closed
    · rw [Pairing.opens, hsmall']
      exact List.mem_cons_self
    · rw [hsmall', hsmall]
      exact stays_of_returned hlt (List.subset_cons_self closed small)
    · rw [hlarge', hlarge]
      exact stays_of_fresh hfresh (List.subset_cons_self donor large)
  · refine ⟨hclosed, hdonor, ?_, ?_, hshares, hbuckets, ?_, ?_⟩
    · rw [hopens, Pairing.opens, hsmall', hlarge']
      exact List.Perm.refl _
    · rw [Pairing.opens, hlarge']
      exact List.mem_append_right _ List.mem_cons_self
    · rw [hsmall', hsmall]
      exact stays_of_fresh hother (List.subset_cons_self closed small)
    · rw [hlarge', hlarge]
      exact stays_of_returned hlt (List.subset_cons_self donor large)

theorem Closes.donor_ne_closed {p q : Pairing α} {size closed donor : Nat} (h : p.Wired size)
    (hcloses : Closes p q closed donor) : donor ≠ closed := by
  intro heq
  have hnodup := hcloses.opens.nodup_iff.1 h.nodup
  exact (List.nodup_cons.1 hnodup).1 (heq ▸ hcloses.donor_open)

theorem Closes.mem_opens_iff {p q : Pairing α} {size closed donor : Nat} (h : p.Wired size)
    (hcloses : Closes p q closed donor) {index : Nat} :
    index ∈ q.opens ↔ index ∈ p.opens ∧ index ≠ closed := by
  have hnodup := hcloses.opens.nodup_iff.1 h.nodup
  have hfresh := (List.nodup_cons.1 hnodup).1
  rw [hcloses.opens.mem_iff, List.mem_cons]
  constructor
  · intro hopen
    exact ⟨.inr hopen, fun heq => hfresh (heq ▸ hopen)⟩
  · intro hopen
    exact hopen.1.resolve_left hopen.2

theorem Closes.share_eq {p q : Pairing α} {size closed donor : Nat} (h : p.Wired size)
    (hcloses : Closes p q closed donor) (index : Nat) :
    q.share index =
      if index = donor then p.share donor + p.share closed - 1 else p.share index := by
  have hdonor : donor < p.shares.length := by
    rw [h.shares_length]
    exact h.lt_size donor ((hcloses.mem_opens_iff h).1 hcloses.donor_open).1
  rw [share, hcloses.shares, List.getD_eq_getElem?_getD]
  by_cases hindex : index = donor
  · rw [hindex, List.getElem?_set_self hdonor, if_pos rfl, Option.getD_some]
  · rw [List.getElem?_set_ne (Ne.symm hindex), if_neg hindex, share, List.getD_eq_getElem?_getD]

theorem Wired.step {p q : Pairing α} {size closed donor : Nat} (h : p.Wired size)
    (hcloses : Closes p q closed donor) : q.Wired size where
  shares_length := by
    rw [hcloses.shares, List.length_set]
    exact h.shares_length
  buckets_length := by
    rw [hcloses.buckets, List.length_set]
    exact h.buckets_length
  nodup := (List.nodup_cons.1 (hcloses.opens.nodup_iff.1 h.nodup)).2
  lt_size := by
    intro index hindex
    exact h.lt_size index ((hcloses.mem_opens_iff h).1 hindex).1
  bucket := by
    intro index hindex
    obtain ⟨hopen, hne⟩ := (hcloses.mem_opens_iff h).1 hindex
    rw [hcloses.buckets, List.getElem?_set_ne hne.symm]
    exact h.bucket index hopen

/-! ## The first state and the last -/

theorem perm_opens_start (shares : List α) :
    (start shares).opens.Perm (List.range shares.length) := by
  have hparts := List.filter_append_perm (fun index => decide (shares.getD index 0 < 1))
    (List.range shares.length).reverse
  exact hparts.trans (List.reverse_perm _)

theorem wired_start (shares : List α) : (start shares).Wired shares.length where
  shares_length := rfl
  buckets_length := by simp [start]
  nodup := (perm_opens_start shares).nodup_iff.2 List.nodup_range
  lt_size := by
    intro index hindex
    exact List.mem_range.1 ((perm_opens_start shares).mem_iff.1 hindex)
  bucket := by
    intro index hindex
    have hlt := List.mem_range.1 ((perm_opens_start shares).mem_iff.1 hindex)
    simp [start, hlt]

theorem small_or_large_eq_nil {p : Pairing α} (h : p.step? = none) :
    p.small = [] ∨ p.large = [] := by
  obtain ⟨shares, buckets, small, large⟩ := p
  cases small with
  | nil => exact .inl rfl
  | cons s small =>
      cases large with
      | nil => exact .inr rfl
      | cons l large => simp [step?] at h

theorem Reaches.keeps {motive : Pairing α → Prop} {size : Nat}
    (hstep : ∀ p q closed donor, p.Wired size → Closes p q closed donor → motive p → motive q)
    {first p : Pairing α} {before : List (Pairing α)} (h : first.Reaches before p)
    (hwired : first.Wired size) (hfirst : motive first) : p.Wired size ∧ motive p := by
  induction h with
  | start => exact ⟨hwired, hfirst⟩
  | step _ hnext ih =>
      obtain ⟨closed, donor, -, hcloses⟩ := ih.1.closes_of_step? hnext
      exact ⟨ih.1.step hcloses, hstep _ _ closed donor ih.1 hcloses ih.2⟩

private theorem Reaches.of_step? {first second p : Pairing α} {before : List (Pairing α)}
    (hstep : first.step? = some second) (h : second.Reaches before p) :
    first.Reaches (first :: before) p := by
  induction h with
  | start => exact .step .start hstep
  | step _ hnext ih => exact .step ih hnext

theorem reaches_run (p : Pairing α) :
    (∃ before, p.Reaches before p.run) ∧ p.run.step? = none := by
  fun_induction run p with
  | case1 p q hq ih =>
      obtain ⟨⟨before, hreaches⟩, hend⟩ := ih
      exact ⟨⟨p :: before, hreaches.of_step? hq⟩, hend⟩
  | case2 p hnone => exact ⟨⟨[], .start⟩, hnone⟩

theorem run_induction {motive : Pairing α → Prop} {size : Nat}
    (hstep : ∀ p q closed donor, p.Wired size → Closes p q closed donor → motive p → motive q)
    {p : Pairing α} (hwired : p.Wired size) (h : motive p) :
    p.run.Wired size ∧ motive p.run ∧ p.run.step? = none := by
  obtain ⟨⟨before, hreaches⟩, hend⟩ := reaches_run p
  obtain ⟨hwired', hmotive⟩ := hreaches.keeps hstep hwired h
  exact ⟨hwired', hmotive, hend⟩

end DropTable.Pairing
