import DropTable.Proofs.Binary64.Values
/-!
# Negative zero

Adding zero gives every double back but negative zero.  Negative zero comes up in a sum only if
both summands are it: an exact zero is rounded to the positive one, and no exact sum is so small
that it is rounded to zero.  So a number that starts at zero and has numbers added to it takes a
zero without a change, whatever has been rounded and even if it has become an infinity or a NaN.
-/

namespace DropTable.Binary64

open Float.Model Float.Model.UnpackedFloat

/-! ## Sums of unpacked doubles -/

private theorem zero_ne_negativeZero : (.zero .positive : UnpackedFloat) ≠ .zero .negative := by
  simp

private theorem add_positiveZero {u : UnpackedFloat} (h : u ≠ .zero .negative) :
    UnpackedFloat.add Format.binary64 u (.zero .positive) = u := by
  cases u with
  | zero s =>
      cases s with
      | negative => exact absurd rfl h
      | positive => rfl
  | _ => rfl

/-- What is not zero is at least a unit away from it, and a unit needs no rounding. -/
private theorem normalize_ne_negativeZero (significand : Int) {exponent : Int}
    (h : -1074 ≤ exponent) :
    UnpackedFloat.normalize Format.binary64 significand exponent .positive ≠ .zero .negative := by
  intro heq
  have hrounded := rounded_normalize significand exponent .positive
  rw [heq] at hrounded
  have hunit : Representable (2 ^ exponent) := ⟨1, exponent, by norm_num, h, by simp⟩
  have hpos : (0 : Rat) < 2 ^ exponent := zpow_pos two_pos exponent
  rcases lt_trichotomy significand 0 with hneg | rfl | hpositive
  · have hle : (significand : Rat) * 2 ^ exponent ≤ -2 ^ exponent := by
      have hone : (significand : Rat) ≤ -1 := by exact_mod_cast Int.le_sub_one_of_lt hneg
      linarith [mul_le_mul_of_nonneg_right hone hpos.le]
    have hzero := hrounded.ge_of_ge _ hunit.neg hle
    rw [valueOf_zero] at hzero
    linarith
  · have hexact : UnpackedFloat.normalize Format.binary64 0 exponent .positive =
        .zero .positive := rfl
    exact zero_ne_negativeZero (hexact.symm.trans heq)
  · have hle : (2 : Rat) ^ exponent ≤ significand * 2 ^ exponent := by
      have hone : (1 : Rat) ≤ significand := by exact_mod_cast hpositive
      exact le_mul_of_one_le_left hpos.le hone
    have hzero := hrounded.le_of_le _ hunit hle
    rw [valueOf_zero] at hzero
    exact absurd hpos (not_lt.2 hzero)

private theorem add_ne_negativeZero {u v : UnpackedFloat} (hu : Proper u) (hv : Proper v)
    (h : u ≠ .zero .negative) : UnpackedFloat.add Format.binary64 u v ≠ .zero .negative := by
  cases u with
  | notANumber => exact UnpackedFloat.noConfusion
  | infinity s =>
      cases v with
      | infinity s' => cases s <;> cases s' <;> exact UnpackedFloat.noConfusion
      | _ => exact UnpackedFloat.noConfusion
  | zero s =>
      cases s with
      | negative => exact absurd rfl h
      | positive =>
          cases v with
          | zero s' =>
              have hsum : UnpackedFloat.add Format.binary64 (.zero .positive) (.zero s') =
                  .zero .positive := by cases s' <;> rfl
              rw [hsum]
              exact zero_ne_negativeZero
          | _ => exact UnpackedFloat.noConfusion
  | finite s significand exponent hpos =>
      cases v with
      | finite s' significand' exponent' hpos' =>
          exact normalize_ne_negativeZero _ (le_min (Canonical.least hu) (Canonical.least hv))
      | _ => exact UnpackedFloat.noConfusion

theorem Proper.add {u v : UnpackedFloat} (hu : Proper u) (hv : Proper v) :
    Proper (UnpackedFloat.add Format.binary64 u v) := by
  cases u with
  | notANumber => trivial
  | infinity s =>
      cases v with
      | infinity s' => cases s <;> cases s' <;> trivial
      | _ => trivial
  | zero s =>
      cases v with
      | zero s' => cases s <;> cases s' <;> trivial
      | finite s' significand exponent hpos => exact hv
      | _ => trivial
  | finite s significand exponent hpos =>
      cases v with
      | finite s' significand' exponent' hpos' => exact (rounded_add hu hv rfl rfl).proper
      | zero s' => exact hu
      | _ => trivial

private theorem sub_self_of_isFinite {u : UnpackedFloat} (h : u.isFinite = true) :
    UnpackedFloat.sub Format.binary64 u u = .zero .positive := by
  obtain ⟨s, rfl⟩ | ⟨s, significand, exponent, hpos, rfl⟩ := cases_of_isFinite h
  · cases s <;> rfl
  · simp only [UnpackedFloat.sub, Int.sub_self]
    rfl

private theorem settle_ne_negativeZero {u : UnpackedFloat} (h : u ≠ .zero .negative) :
    settle u ≠ .zero .negative := by
  cases u with
  | finite s significand exponent hpos =>
      rw [settle]
      split <;> simp
  | _ => exact h

/-! ## Sums of doubles -/

private theorem unpack_add (x y : Float) : (x + y).toModel.unpack =
    settle (UnpackedFloat.add Format.binary64 x.toModel.unpack y.toModel.unpack) :=
  unpack_pack ((fits x).proper.add (fits y).proper)

def IsNegativeZero (x : Float) : Prop :=
  x.toModel.unpack = .zero .negative

theorem not_isNegativeZero_zero : ¬IsNegativeZero 0 :=
  zero_ne_negativeZero

theorem not_isNegativeZero_add {x : Float} (h : ¬IsNegativeZero x) (y : Float) :
    ¬IsNegativeZero (x + y) := by
  rw [IsNegativeZero, unpack_add]
  exact settle_ne_negativeZero (add_ne_negativeZero (fits x).proper (fits y).proper h)

theorem add_zero_eq {x : Float} (h : ¬IsNegativeZero x) : x + 0 = x :=
  calc x + 0
      = .ofModel (.pack (UnpackedFloat.add Format.binary64 x.toModel.unpack (.zero .positive))) :=
        rfl
    _ = .ofModel (.pack x.toModel.unpack) := by rw [add_positiveZero h]
    _ = x := ofModel_pack_unpack x

theorem sub_self_eq_zero {x : Float} (h : x.isFinite = true) : x - x = 0 :=
  congrArg (fun u => Float.ofModel (.pack u)) (sub_self_of_isFinite h)

end DropTable.Binary64
