import DropTable.Proofs.Binary64.Values
import DropTable.Scalar.Binary64
/-!
# Counts as doubles

A count of 53 bits is a double, and the whole part of a double that is not negative never exceeds
the double.
-/

namespace DropTable.Binary64

open Float.Model Float.Model.UnpackedFloat

/-! ## From a count to a double -/

theorem natCast_le_largest {count : Nat} (h : count ≤ UInt64.size) : |(count : Rat)| ≤ largest := by
  have hword : (count : Rat) ≤ 2 ^ (64 : Int) := by exact_mod_cast h
  have hpower : (2 : Rat) ^ (64 : Int) ≤ 2 ^ (971 : Int) :=
    zpow_le_zpow_right₀ (by norm_num) (by norm_num)
  have hlargest : (2 : Rat) ^ (971 : Int) ≤ largest :=
    le_mul_of_one_le_left (zpow_pos two_pos 971).le (by norm_num)
  rw [abs_of_nonneg (Nat.cast_nonneg count)]
  exact hword.trans (hpower.trans hlargest)

private theorem representable_natCast {count : Nat} (h : count ≤ 2 ^ 53) : Representable count := by
  have hbits : |(count : Int)| ≤ 2 ^ 53 := by
    rw [abs_of_nonneg (Int.natCast_nonneg count)]
    exact_mod_cast h
  exact ⟨count, 0, hbits, by norm_num, by simp⟩

private theorem rounded_ofNat (count : Nat) :
    Rounded (UnpackedFloat.ofNat Format.binary64 count) count := by
  have hround := rounded_normalize count 0 .positive
  rwa [zpow_zero, mul_one, Int.cast_natCast] at hround

theorem reads_toFloat {count : Nat} (h : count < 2 ^ 53) : Reads count.toUInt64.toFloat count := by
  have hword : count.toUInt64.toNat = count := by
    rw [Nat.toUInt64, UInt64.toNat_ofNat']
    omega
  have hvalue : (count.toUInt64.toNat : Rat) = count := congrArg Nat.cast hword
  have hround := rounded_ofNat count.toUInt64.toNat
  rw [hvalue] at hround
  have hrange := natCast_le_largest (h.le.trans (by decide))
  exact (hround.rounds hrange).reads (representable_natCast h.le)

/-! ## The whole part -/

private theorem roundToInt_eq (s : Sign) (significand : Nat) (exponent : Int) :
    roundToInt s significand exponent =
      s.apply (significand * 2 ^ exponent.toNat / 2 ^ (-exponent).toNat : Nat) := by
  have hshift : (0 - (exponent - exponent.toNat)).toNat = (-exponent).toNat := by omega
  simp only [roundToInt, decreaseExponent, shiftToExponent, mantissa_shiftRight,
    ExtendedMantissa.ofMantissaAndAccuracy, Nat.shiftLeft_eq, sub_zero, hshift]

private theorem roundToInt_le (significand : Nat) (exponent : Int) :
    (roundToInt .positive significand exponent : Rat) ≤ significand * 2 ^ exponent := by
  have hexponent : (2 : Rat) ^ exponent = 2 ^ exponent.toNat / 2 ^ (-exponent).toNat := by
    rw [← zpow_natCast, ← zpow_natCast, ← zpow_sub₀ (by norm_num)]
    congr 1
    omega
  have hdiv := Nat.cast_div_le (α := Rat) (m := significand * 2 ^ exponent.toNat)
    (n := 2 ^ (-exponent).toNat)
  rw [roundToInt_eq, Sign.apply, Int.cast_natCast, hexponent, ← mul_div_assoc]
  exact_mod_cast hdiv

private theorem toNat_ofNatClamp_le (n : Nat) : (UInt64.ofNatClamp n).toNat ≤ n := by
  unfold UInt64.ofNatClamp
  split
  case isTrue => exact le_rfl
  case isFalse hlarge =>
    have hsize : (UInt64.ofNatLT (UInt64.size - 1) (by decide)).toNat = UInt64.size - 1 := rfl
    omega

theorem Reads.floor_le {x : Float} {q : Rat} (hx : Reads x q) (h : 0 ≤ q) :
    (Scalar.floor x : Rat) ≤ q := by
  obtain ⟨hfinite, rfl⟩ := hx
  have hfloor : (Scalar.floor x : Rat) ≤ (x.toModel.unpack.toInt 0 (UInt64.size - 1)).toNat := by
    exact_mod_cast toNat_ofNatClamp_le _
  refine hfloor.trans ?_
  have hvalue : value x = valueOf x.toModel.unpack := rfl
  obtain ⟨s, hunpack⟩ | ⟨s, significand, exponent, hpos, hunpack⟩ := cases_of_isFinite hfinite
  · rw [hunpack]
    exact h
  · rw [hunpack] at hvalue ⊢
    cases s with
    | positive =>
        have hnonneg : 0 ≤ roundToInt .positive significand exponent := by
          rw [roundToInt_eq, Sign.apply]
          exact Int.natCast_nonneg _
        rw [UnpackedFloat.toInt, hvalue, valueOf_positive, ← Int.cast_natCast,
          Int.toNat_of_nonneg hnonneg]
        exact roundToInt_le significand exponent
    | negative =>
        rw [hvalue, valueOf_negative] at h
        have hmagnitude := magnitude_pos hpos exponent
        linarith

end DropTable.Binary64
