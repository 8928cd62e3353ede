import DropTable.Proofs.Binary64.Order
import DropTable.Sampler.Draw
import DropTable.Scalar.Binary64
/-!
# Draws and weights in doubles

What a weight counts for is zero or a positive finite double, and what a draw becomes lies between
zero and one.  Neither needs more than the order of doubles.
-/

namespace DropTable.Draw

open Binary64

/-! ## Weights that count -/

private theorem effective_eq (weight : Float) :
    effective weight = if weight.isFinite && decide (0 < weight) then weight else 0 := rfl

theorem isFinite_effective (weight : Float) : (effective weight).isFinite = true := by
  rw [effective_eq]
  split
  case isTrue hcounts => exact (Bool.and_eq_true_iff.1 hcounts).1
  case isFalse => exact reads_zero.isFinite

theorem value_effective_nonneg (weight : Float) : 0 ≤ value (effective weight) := by
  rw [effective_eq]
  split
  case isTrue hcounts =>
    obtain ⟨hfinite, hpositive⟩ := Bool.and_eq_true_iff.1 hcounts
    exact ((reads_zero.lt_iff (reads_value hfinite)).1 (of_decide_eq_true hpositive)).le
  case isFalse => exact reads_zero.value_eq.ge

theorem effective_pos_iff (weight : Float) : 0 < effective weight ↔ 0 < value (effective weight) :=
  reads_zero.lt_iff (reads_value (isFinite_effective weight))

theorem effective_eq_zero_iff (weight : Float) :
    effective weight = 0 ↔ value (effective weight) = 0 := by
  constructor
  · intro hzero
    rw [hzero]
    exact reads_zero.value_eq
  · intro hvalue
    have hpositive := effective_pos_iff weight
    rw [hvalue] at hpositive
    rw [effective_eq] at hpositive ⊢
    split at hpositive
    case isTrue hcounts =>
      have hcontra := hpositive.1 (of_decide_eq_true (Bool.and_eq_true_iff.1 hcounts).2)
      exact absurd hcontra (lt_irrefl 0)
    case isFalse hskipped => rw [if_neg hskipped]

/-- What a weight can count for. -/
def Effective (weight : Float) : Prop :=
  weight = 0 ∨ 0 < weight

theorem effective_mem (weight : Float) : Effective (effective weight) := by
  rw [effective_eq]
  split
  case isTrue hcounts => exact .inr (of_decide_eq_true (Bool.and_eq_true_iff.1 hcounts).2)
  case isFalse => exact .inl rfl

theorem Effective.nonneg {weight : Float} (h : Effective weight) : 0 ≤ weight := by
  rcases h with rfl | hpositive
  · exact (reads_zero.le_iff reads_zero).2 le_rfl
  · exact le_of_lt hpositive

theorem Effective.eq_zero_iff {weight : Float} (h : Effective weight) :
    weight = 0 ↔ ¬ 0 < weight := by
  constructor
  · rintro rfl
    rw [reads_zero.lt_iff reads_zero]
    exact lt_irrefl 0
  · exact h.resolve_right

/-! ## Draws -/

private theorem clamp_between {low high x : Float} (hle : low ≤ high) (hx : x.isNaN = false) :
    low ≤ Scalar.clamp low high x ∧ Scalar.clamp low high x ≤ high := by
  obtain ⟨hlow, hhigh⟩ := isNaN_of_le hle
  unfold Scalar.clamp
  by_cases hbelow : x < low
  · rw [if_pos hbelow, if_neg (not_lt_of_le hle)]
    exact ⟨le_refl hlow, hle⟩
  · by_cases habove : high < x
    · rw [if_neg hbelow, if_pos habove]
      exact ⟨hle, le_refl hhigh⟩
    · rw [if_neg hbelow, if_neg habove]
      exact ⟨le_of_not_lt hlow hx hbelow, le_of_not_lt hx hhigh habove⟩

theorem clamp_unit {draw : Float} (h : draw.isNaN = false) :
    0 ≤ Scalar.clamp 0 1 draw ∧ Scalar.clamp 0 1 draw ≤ 1 :=
  clamp_between ((reads_zero.le_iff reads_one).2 zero_le_one) h

private theorem clamp_le_clamp {low high x y : Float} (hle : low ≤ high) (hxy : x ≤ y) :
    Scalar.clamp low high x ≤ Scalar.clamp low high y := by
  obtain ⟨hx, hy⟩ := isNaN_of_le hxy
  by_cases hbelow : x < low
  · have hraised : Scalar.clamp low high x = low := by
      rw [Scalar.clamp, if_pos hbelow, if_neg (not_lt_of_le hle)]
    rw [hraised]
    exact (clamp_between hle hy).1
  · by_cases habove : high < y
    · have hlowered : Scalar.clamp low high y = high := by
        have hraised : ¬ y < low := not_lt_of_le (le_trans hle (le_of_lt habove))
        rw [Scalar.clamp, if_neg hraised, if_pos habove]
      rw [hlowered]
      exact (clamp_between hle hx).2
    · have hlow : low ≤ x := le_of_not_lt (isNaN_of_le hle).1 hx hbelow
      have hhigh : y ≤ high := le_of_not_lt hy (isNaN_of_le hle).2 habove
      rw [Scalar.clamp, Scalar.clamp, if_neg hbelow, if_neg (not_lt_of_le (le_trans hlow hxy)),
        if_neg habove, if_neg (not_lt_of_le (le_trans hxy hhigh))]
      exact hxy

theorem target_le_target {total first second : Float} (hfinite : total.isFinite = true)
    (hpositive : 0 < total) (h : first ≤ second) :
    Scalar.clamp 0 1 first * total ≤ Scalar.clamp 0 1 second * total := by
  obtain ⟨hfirst, hsecond⟩ := isNaN_of_le h
  have hunit : (0 : Float) ≤ 1 := (reads_zero.le_iff reads_one).2 zero_le_one
  exact mul_le_mul_of_unit (clamp_unit hfirst).1 (clamp_le_clamp hunit h) (clamp_unit hsecond).2
    hpositive hfinite

theorem clampResidual_mem (residual : Float) :
    0 ≤ clampResidual residual ∧ clampResidual residual < 1 := by
  have hlast : 0 ≤ (Scalar.lastDraw : Float) ∧ (Scalar.lastDraw : Float) < 1 := by decide +kernel
  unfold clampResidual
  cases hnan : Scalar.isNaN residual with
  | true => exact ⟨le_refl reads_zero.isNaN_eq, (reads_zero.lt_iff reads_one).2 one_pos⟩
  | false =>
      obtain ⟨hlow, hhigh⟩ := clamp_between hlast.1 hnan
      exact ⟨hlow, lt_of_le_of_lt hhigh hlast.2⟩

end DropTable.Draw
