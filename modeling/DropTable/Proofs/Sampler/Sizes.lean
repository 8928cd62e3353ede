import Mathlib.Data.List.Basic
import DropTable.Proofs.Sampler.Pairing
import DropTable.Proofs.Sampler.RunningSums
import DropTable.Proofs.Sampler.Tree
/-!
# The sizes of samplers

What a sampler keeps beside its weights has a place for each of them, and buckets point at indices
that have a weight.  Building and updating see to that, however their arithmetic rounds.
-/

namespace DropTable

variable {α : Type}

/-- Whether the lists of a sampler are as long as they have to be, and buckets stay within them. -/
def Sampler.Sized : Sampler α → Prop
  | .cumulative c => c.sums.length = c.weights.length
  | .fenwick f => f.nodes.length = f.weights.length
  | .aliasBuckets a =>
    a.buckets.length ≤ a.weights.length ∧ ∀ b ∈ a.buckets, b.other < a.weights.length

variable [Scalar α]

/-! ## Buckets -/

namespace Pairing

private theorem other_lt_run (shares : List α) :
    (start shares).run.buckets.length = shares.length ∧
      ∀ b ∈ (start shares).run.buckets, b.other < shares.length := by
  have hstart : ∀ b ∈ (start shares).buckets, b.other < shares.length := by
    simp [start]
  have hstep : ∀ (p q : Pairing α) closed donor, p.Wired shares.length → Closes p q closed donor →
      (∀ b ∈ p.buckets, b.other < shares.length) → ∀ b ∈ q.buckets, b.other < shares.length := by
    intro p q closed donor hwired hcloses hp b hb
    rw [hcloses.buckets] at hb
    rcases List.mem_or_eq_of_mem_set hb with hold | rfl
    · exact hp b hold
    · exact hwired.lt_size donor (List.mem_append_right _ hcloses.donor_mem)
  obtain ⟨hwired, hother, -⟩ := run_induction hstep (wired_start shares) hstart
  exact ⟨hwired.buckets_length, hother⟩

end Pairing

namespace Alias

private theorem heaviest_lt {weights : List α} (hne : weights ≠ []) :
    heaviest weights < weights.length := by
  unfold heaviest
  refine List.foldlRecOn (motive := (· < weights.length)) _ _ (List.length_pos_of_ne_nil hne) ?_
  rintro best hbest ⟨weight, index⟩ hmem
  dsimp only
  split
  case isTrue => exact hbest
  case isFalse => exact List.snd_lt_of_mem_zipIdx hmem

theorem sized_fillBuckets (weights : List α) (total : α) :
    (fillBuckets weights total).length = weights.length ∧
      ∀ b ∈ fillBuckets weights total, b.other < weights.length := by
  obtain ⟨hlength, hother⟩ :=
    Pairing.other_lt_run (weights.map fun w => w * Scalar.ofNat weights.length / total)
  rw [List.length_map] at hlength hother
  unfold fillBuckets
  refine List.foldlRecOn (motive := fun buckets : List (Bucket α) =>
    buckets.length = weights.length ∧ ∀ b ∈ buckets, b.other < weights.length) _ _
    ⟨hlength, hother⟩ ?_
  rintro buckets ⟨hlength, hother⟩ index -
  refine ⟨by rw [List.length_set, hlength], fun b hb => ?_⟩
  rcases List.mem_or_eq_of_mem_set hb with hold | rfl
  · exact hother b hold
  · have hpos : 0 < weights.length := by
      rw [← hlength, ← List.length_set (i := index)]
      exact List.length_pos_of_mem hb
    exact heaviest_lt (List.ne_nil_of_length_pos hpos)

end Alias

/-! ## Building and updating -/

theorem Fenwick.sized_update {f : Fenwick α} (h : (Sampler.fenwick f).Sized) (index : Nat)
    (weight : α) : (Sampler.fenwick (f.update index weight)).Sized := by
  unfold Fenwick.update
  split
  case h_1 => simpa [Sampler.Sized] using h
  case h_2 => exact h

theorem Cumulative.sized_update {c : Cumulative α} (h : (Sampler.cumulative c).Sized) (index : Nat)
    (weight : α) : (Sampler.cumulative (c.update index weight)).Sized := by
  unfold Cumulative.update
  split
  case isTrue hindex =>
    simp only [Sampler.Sized, Cumulative.size] at h hindex
    simp [Sampler.Sized, h]
    omega
  case isFalse => exact h

namespace Sampler

theorem sized_build (strategy : Strategy) (weights : List α) : (build strategy weights).Sized := by
  cases strategy with
  | cumulative => exact Cumulative.length_runningSums 0 _
  | fenwick =>
      refine List.foldlRecOn (motive := fun f : Fenwick α => (Sampler.fenwick f).Sized) _ _ ?_ ?_
      · simp [Sized, Fenwick.zeros]
      · intro f hf _ _
        exact Fenwick.sized_update hf _ _
  | aliasBuckets =>
      simp only [build, Sized, Alias.ofWeights]
      split
      case isTrue =>
        obtain ⟨hlength, hother⟩ := Alias.sized_fillBuckets (weights.map Draw.effective)
          (Scalar.sum (weights.map Draw.effective))
        exact ⟨hlength.le, hother⟩
      case isFalse => simp

theorem Sized.update {s : Sampler α} (h : s.Sized) (index : Nat) (weight : α) :
    (s.update index weight).Sized := by
  cases s with
  | cumulative c => exact Cumulative.sized_update h index weight
  | fenwick f => exact Fenwick.sized_update h index weight
  | aliasBuckets a => exact h

end Sampler

end DropTable
