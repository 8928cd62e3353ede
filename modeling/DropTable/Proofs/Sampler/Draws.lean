import Mathlib.Algebra.Order.Field.Rat
import Mathlib.Tactic.Linarith
import Mathlib.Tactic.NormNum
import DropTable.Sampler.Draw
import DropTable.Scalar.Rational
/-!
# Draws without rounding

Over exact rationals nothing is lost to rounding or NaN, so that draws, targets and residuals follow
the usual laws of an ordered field.
-/

namespace DropTable.Draw

theorem ofNat_eq (n : Nat) : (Scalar.ofNat n : Rat) = n := rfl

theorem effective_nonneg (weight : Rat) : 0 ≤ effective weight := by
  unfold effective
  split
  case isTrue hpositive =>
    rw [Bool.and_eq_true, decide_eq_true_eq] at hpositive
    exact le_of_lt hpositive.2
  case isFalse => exact le_refl 0

theorem map_effective_nonneg (weights : List Rat) : ∀ w ∈ weights.map effective, 0 ≤ w := by
  intro w hw
  obtain ⟨weight, -, rfl⟩ := List.mem_map.1 hw
  exact effective_nonneg weight

theorem clamp_of_mem {draw : Rat} (hlow : 0 ≤ draw) (hhigh : draw ≤ 1) :
    Scalar.clamp 0 1 draw = draw := by
  unfold Scalar.clamp
  rw [if_neg (not_lt.2 hlow), if_neg (not_lt.2 hhigh)]

private theorem clamp_mem (draw : Rat) : 0 ≤ Scalar.clamp 0 1 draw ∧ Scalar.clamp 0 1 draw ≤ 1 := by
  unfold Scalar.clamp
  by_cases hlow : draw < 0
  · rw [if_pos hlow, if_neg (by norm_num)]
    norm_num
  · by_cases hhigh : 1 < draw
    · rw [if_neg hlow, if_pos hhigh]
      norm_num
    · rw [if_neg hlow, if_neg hhigh]
      exact ⟨not_lt.1 hlow, not_lt.1 hhigh⟩

theorem target?_eq (draw total : Rat) :
    target? draw total = if 0 < total then some (Scalar.clamp 0 1 draw * total) else none := by
  unfold target?
  simp [Scalar.isNaN]

theorem target?_bounds {draw total target : Rat} (h : target? draw total = some target) :
    0 < total ∧ 0 ≤ target ∧ target ≤ total := by
  rw [target?_eq] at h
  by_cases htotal : 0 < total
  · rw [if_pos htotal, Option.some.injEq] at h
    obtain ⟨hlow, hhigh⟩ := clamp_mem draw
    rw [← h]
    exact ⟨htotal, mul_nonneg hlow (le_of_lt htotal), mul_le_of_le_one_left (le_of_lt htotal) hhigh⟩
  · rw [if_neg htotal] at h
    contradiction

theorem clampResidual_of_nonneg {residual : Rat} (h : 0 ≤ residual) :
    clampResidual residual = min residual Scalar.lastDraw := by
  unfold clampResidual Scalar.clamp
  rw [if_neg (by simp [Scalar.isNaN]), if_neg (not_lt.2 h)]
  by_cases hlast : Scalar.lastDraw < residual
  · rw [if_pos hlast, min_eq_right (le_of_lt hlast)]
  · rw [if_neg hlast, min_eq_left (not_lt.1 hlast)]

end DropTable.Draw
