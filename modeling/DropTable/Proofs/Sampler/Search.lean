import DropTable.Sampler.Cumulative
import DropTable.Sampler.Fenwick
/-!
# Two searches for the first index

Halving an interval finds the first index that reaches far enough, provided that all later ones do.
Going through stored sums finds the first one in any case.
-/

namespace DropTable

namespace Fenwick

private theorem search_of_reaches {reaches : Nat → Bool} {low high : Nat} (hlt : low < high)
    (h : reaches ((low + high) / 2) = true) :
    search reaches low high = search reaches low ((low + high) / 2) := by
  rw [search, if_pos hlt, if_pos h]

private theorem search_of_not_reaches {reaches : Nat → Bool} {low high : Nat} (hlt : low < high)
    (h : ¬ reaches ((low + high) / 2) = true) :
    search reaches low high = search reaches ((low + high) / 2 + 1) high := by
  rw [search, if_pos hlt, if_neg h]

theorem search_mem (reaches : Nat → Bool) {low high : Nat} (hle : low ≤ high) :
    low ≤ search reaches low high ∧ search reaches low high ≤ high := by
  fun_induction search reaches low high with
  | case1 low high hlt middle hreaches ih =>
      have hhalf := ih (by omega)
      omega
  | case2 low high hlt middle hreaches ih =>
      have hhalf := ih (by omega)
      omega
  | case3 low high hlt => omega

theorem reaches_search {reaches : Nat → Bool} {low high : Nat} (hle : low ≤ high)
    (hhigh : reaches high = true) : reaches (search reaches low high) = true := by
  fun_induction search reaches low high with
  | case1 low high hlt middle hreaches ih => exact ih (by omega) hreaches
  | case2 low high hlt middle hreaches ih => exact ih (by omega) hhigh
  | case3 low high hlt =>
      have heq : low = high := by omega
      rw [heq]
      exact hhigh

theorem not_reaches_of_lt_search {reaches : Nat → Bool}
    (hmono : ∀ first second, first ≤ second → reaches first = true → reaches second = true)
    {low high before : Nat} (hlow : low ≤ before) (hbefore : before < search reaches low high) :
    reaches before = false := by
  fun_induction search reaches low high with
  | case1 low high hlt middle hreaches ih => exact ih hlow hbefore
  | case2 low high hlt middle hreaches ih =>
      by_cases hmiddle : middle + 1 ≤ before
      · exact ih hmiddle hbefore
      · cases hcontra : reaches before with
        | false => rfl
        | true => exact absurd (hmono before middle (by omega) hcontra) hreaches
  | case3 low high hlt => omega

/-- Where less reaches far enough, nothing is found earlier. The two searches may take different
turns, but only once, since then the middle parts what they find. -/
theorem search_le_search {reaches reaches' : Nat → Bool}
    (h : ∀ index, reaches' index = true → reaches index = true) {low high : Nat}
    (hle : low ≤ high) : search reaches low high ≤ search reaches' low high := by
  fun_induction search reaches low high with
  | case1 low high hlt middle hreaches ih =>
      by_cases hreaches' : reaches' middle = true
      · rw [search_of_reaches hlt hreaches']
        exact ih (by omega)
      · rw [search_of_not_reaches hlt hreaches']
        have hbefore : low ≤ middle := by omega
        have hbehind : (low + high) / 2 + 1 ≤ high := by omega
        have hfirst := search_mem reaches hbefore
        have hsecond := search_mem reaches' hbehind
        omega
  | case2 low high hlt middle hreaches ih =>
      rw [search_of_not_reaches hlt fun hreaches' => hreaches (h middle hreaches')]
      exact ih (by omega)
  | case3 low high hlt => exact (search_mem reaches' hle).1

end Fenwick

namespace Cumulative

variable {α : Type} [Scalar α]

/-- How far a target is from the start of the stored sums. -/
def rank (sums : List α) (target : α) : Nat :=
  (sums.takeWhile (· < target)).length

private theorem rank_eq_findIdx (sums : List α) (target : α) :
    rank sums target = sums.findIdx fun sum => !decide (sum < target) := by
  rw [rank, List.takeWhile_eq_take_findIdx_not, List.length_take,
    Nat.min_eq_left List.findIdx_le_length]

theorem rank_lt_length_iff {sums : List α} {target : α} :
    rank sums target < sums.length ↔ ∃ sum ∈ sums, ¬ sum < target := by
  rw [rank_eq_findIdx, List.findIdx_lt_length]
  simp

theorem not_getElem_rank_lt {sums : List α} {target : α} (h : rank sums target < sums.length) :
    ¬ sums[rank sums target] < target := by
  simp only [rank_eq_findIdx] at h ⊢
  simpa using List.findIdx_getElem (w := h)

theorem getElem_lt_of_lt_rank {sums : List α} {target : α} {before : Nat}
    (hlength : before < sums.length) (hbefore : before < rank sums target) :
    sums[before] < target := by
  rw [rank_eq_findIdx] at hbefore
  simpa using List.not_of_lt_findIdx hbefore

theorem rank_le_rank {sums : List α} {target target' : α}
    (h : ∀ sum, sum < target → sum < target') : rank sums target ≤ rank sums target' := by
  rw [rank_eq_findIdx, rank_eq_findIdx]
  apply List.findIdx_le_findIdx
  intro sum _ hreaches
  rw [Bool.not_eq_true', decide_eq_false_iff_not] at hreaches ⊢
  exact fun hlt => hreaches (h sum hlt)

end Cumulative

end DropTable
