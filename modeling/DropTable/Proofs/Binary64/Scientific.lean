import DropTable.Proofs.Binary64.Counts
/-!
# Decimals become the nearest doubles

A significand and a power of ten are multiplied or divided with a single rounding.  For small ones
this is done with doubles, of which both are exact.  A count is a decimal too.
-/

namespace DropTable.Binary64

open Float.Model Float.Model.UnpackedFloat

/-! ## Quotients -/

/-- The exponent from which on a quotient is computed. -/
def quotientExponent (m : Nat) (e : Int) (n : Nat) (f : Int) : Int :=
  min (e - f) (max (m.log2 + 1 + e - (n.log2 + 1 + f) - 53) (-1074))

private theorem div_eq_roundWithAccuracy {m n : Nat} {e f : Int} (hm : 0 < m) (hn : 0 < n) :
    UnpackedFloat.div Format.binary64 (.finite .positive m e hm) (.finite .positive n f hn) =
      roundWithAccuracy Format.binary64 .positive
        (m <<< (e - f - quotientExponent m e n f).toNat / n) (quotientExponent m e n f)
        (accuracyOfFraction (m <<< (e - f - quotientExponent m e n f).toNat % n) n) := rfl

private theorem quotientExponent_le {m n : Nat} (hm : 0 < m) (hn : 0 < n) (e f : Int) :
    quotientExponent m e n f ≤
      lastExponent (m <<< (e - f - quotientExponent m e n f).toNat / n)
        (quotientExponent m e n f) := by
  by_cases hleast : quotientExponent m e n f ≤ -1074
  · exact hleast.trans (le_max_right _ _)
  · have hshift : n.log2 + 1 + 52 ≤ m.log2 + (e - f - quotientExponent m e n f).toNat := by
      unfold quotientExponent at *
      omega
    have hquotient : 2 ^ 52 ≤ m <<< (e - f - quotientExponent m e n f).toNat / n := by
      rw [Nat.le_div_iff_mul_le hn, Nat.shiftLeft_eq]
      calc 2 ^ 52 * n ≤ 2 ^ 52 * 2 ^ (n.log2 + 1) := Nat.mul_le_mul_left _ Nat.lt_log2_self.le
        _ = 2 ^ (n.log2 + 1 + 52) := by rw [← Nat.pow_add, Nat.add_comm]
        _ ≤ 2 ^ (m.log2 + (e - f - quotientExponent m e n f).toNat) :=
          Nat.pow_le_pow_right two_pos hshift
        _ ≤ m * 2 ^ (e - f - quotientExponent m e n f).toNat := by
          rw [Nat.pow_add]
          exact Nat.mul_le_mul_right _ (Nat.log2_self_le hm.ne')
    have hlog := (Nat.le_log2 (by omega)).2 hquotient
    unfold lastExponent
    omega

private theorem roundsTo_div {m n : Nat} (hm : 0 < m) (hn : 0 < n) (e f : Int) :
    RoundsTo .positive (m * 2 ^ e / (n * 2 ^ f))
      (UnpackedFloat.div Format.binary64 (.finite .positive m e hm) (.finite .positive n f hn)) := by
  have hround := roundsTo_roundWithAccuracy .positive (tracks_div _ hn)
    (quotientExponent_le hm hn e f)
  have hquotient : ((m <<< (e - f - quotientExponent m e n f).toNat : Nat) : Rat) / n *
      2 ^ quotientExponent m e n f = m * 2 ^ e / (n * 2 ^ f) := by
    have hexponent : ((e - f - quotientExponent m e n f).toNat : Int) + quotientExponent m e n f =
        e - f := by
      unfold quotientExponent
      omega
    have hnpos : (n : Rat) ≠ 0 := by exact_mod_cast hn.ne'
    rw [Nat.shiftLeft_eq, Nat.cast_mul, Nat.cast_pow, Nat.cast_ofNat, div_mul_eq_mul_div, mul_assoc,
      ← zpow_natCast, ← zpow_add₀ two_ne_zero, hexponent, zpow_sub₀ two_ne_zero]
    field_simp
  rw [hquotient] at hround
  rw [div_eq_roundWithAccuracy]
  exact hround

private theorem Reads.roundsTo_div {x y : Float} {p q : Rat} (hx : Reads x p) (hy : Reads y q)
    (hp : 0 < p) (hq : 0 < q) :
    RoundsTo .positive (p / q)
      (UnpackedFloat.div Format.binary64 x.toModel.unpack y.toModel.unpack) := by
  obtain ⟨m, e, hm, hxunpack, -, rfl⟩ := hx.exists_unpack hp
  obtain ⟨n, f, hn, hyunpack, -, rfl⟩ := hy.exists_unpack hq
  rw [hxunpack, hyunpack]
  exact Binary64.roundsTo_div hm hn e f

/-! ## Decimals -/

private theorem reads_powers : ∀ i : Fin Float.exactlyRepresentablePowersOfTen.size,
    Reads Float.exactlyRepresentablePowersOfTen[i] (10 ^ i.val) := by
  intro i
  constructor
  · revert i
    decide +kernel
  · revert i
    decide +kernel

section Decimals

variable {significand : Nat} {exponent : Int}

private theorem ten_zpow_of_nonneg (h : 0 ≤ exponent) :
    (10 : Rat) ^ exponent = 10 ^ exponent.natAbs := by
  rw [← zpow_natCast, Int.natAbs_of_nonneg h]

private theorem ten_zpow_of_neg (h : exponent < 0) :
    (10 : Rat) ^ exponent = (10 ^ exponent.natAbs)⁻¹ := by
  rw [← zpow_natCast, Int.ofNat_natAbs_of_nonpos h.le, zpow_neg, inv_inv]

private theorem roundsTo_ofScientific (hpos : 0 < significand)
    (hlow : -(2 ^ 11 + significand.log2) ≤ exponent) (hhigh : exponent ≤ 2 ^ 11) :
    RoundsTo .positive (significand * 10 ^ exponent)
      (UnpackedFloat.ofScientific Format.binary64 significand exponent) := by
  have hbits : Format.binary64.exponentBits = 11 := rfl
  have hten : ∀ n : Nat, 0 < 10 ^ n := fun n => by positivity
  unfold UnpackedFloat.ofScientific
  rw [dif_neg hpos.ne', hbits, if_neg (by omega), if_neg (by omega)]
  split
  case isTrue hle =>
    have hshifted : 0 < significand <<< 53 := by
      rw [Nat.shiftLeft_eq]
      positivity
    have hlog : 53 ≤ (significand <<< 53 * 10 ^ exponent.toNat).log2 := by
      rw [Nat.le_log2 (Nat.mul_pos hshifted (hten _)).ne', Nat.shiftLeft_eq, Nat.mul_right_comm]
      exact Nat.le_mul_of_pos_left _ (Nat.mul_pos hpos (hten _))
    have hround := roundsTo_mul .positive .positive (e := -53) (f := 0) hshifted (hten exponent.toNat) (by
      unfold lastExponent
      omega)
    have hvalue : ((significand <<< 53 : Nat) : Rat) * 2 ^ (-53 : Int) *
        ((10 ^ exponent.toNat : Nat) * 2 ^ (0 : Int)) = significand * 10 ^ exponent := by
      have hcount : exponent.toNat = exponent.natAbs := by omega
      have hcancel : (2 : Rat) ^ 53 * 2 ^ (-53 : Int) = 1 := by norm_num
      rw [ten_zpow_of_nonneg hle, hcount, Nat.shiftLeft_eq, zpow_zero, mul_one, Nat.cast_mul,
        Nat.cast_pow, Nat.cast_ofNat, mul_assoc (significand : Rat), hcancel, mul_one, Nat.cast_pow,
        Nat.cast_ofNat]
    rw [hvalue] at hround
    exact hround
  case isFalse hneg =>
    have hround := roundsTo_div hpos (hten (-exponent).toNat) 0 0
    have hvalue : (significand : Rat) * 2 ^ (0 : Int) /
        ((10 ^ (-exponent).toNat : Nat) * 2 ^ (0 : Int)) = significand * 10 ^ exponent := by
      have hcount : (-exponent).toNat = exponent.natAbs := by omega
      rw [ten_zpow_of_neg (not_le.1 hneg), hcount, zpow_zero, mul_one, mul_one]
      push_cast
      rfl
    rw [hvalue] at hround
    exact hround

theorem exists_ofScientific (hpos : 0 < significand)
    (hlow : -(2 ^ 11 + significand.log2) ≤ exponent) (hhigh : exponent ≤ 2 ^ 11) :
    ∃ u, Float.ofScientific significand (exponent < 0) exponent.natAbs = .ofModel (.pack u) ∧
      RoundsTo .positive (significand * 10 ^ exponent) u := by
  have hcast : (0 : Rat) < significand := by exact_mod_cast hpos
  unfold Float.ofScientific
  split
  case isTrue hsmall =>
    have hcount := reads_toFloat hsmall.1
    have hsize : exponent.natAbs < Float.exactlyRepresentablePowersOfTen.size :=
      Nat.lt_succ_of_le hsmall.2
    have hpower := reads_powers ⟨exponent.natAbs, hsize⟩
    have hten : (0 : Rat) < 10 ^ exponent.natAbs := by positivity
    by_cases hneg : exponent < 0
    · rw [decide_eq_true hneg, if_pos rfl, ten_zpow_of_neg hneg]
      exact ⟨_, rfl, hcount.roundsTo_div hpower hcast hten⟩
    · rw [decide_eq_false hneg, if_neg (by decide), ten_zpow_of_nonneg (not_lt.1 hneg)]
      exact ⟨_, rfl, hcount.roundsTo_mul hpower hcast hten⟩
  case isFalse =>
    have hexponent : (if decide (exponent < 0) = true then Int.negOfNat exponent.natAbs
        else Int.ofNat exponent.natAbs) = exponent := by
      split
      case isTrue hneg =>
        have hlt := of_decide_eq_true hneg
        rw [Int.negOfNat_eq, Int.ofNat_eq_natCast]
        omega
      case isFalse hneg =>
        have hle := of_decide_eq_false (Bool.not_eq_true _ ▸ hneg)
        rw [Int.ofNat_eq_natCast]
        omega
    rw [hexponent]
    exact ⟨_, rfl, roundsTo_ofScientific hpos hlow hhigh⟩

end Decimals

/-! ## Counts -/

theorem rounds_ofNat {count : Nat} (h : count ≤ UInt64.size) :
    Rounds (Scalar.ofNat count) count := by
  rcases Nat.eq_zero_or_pos count with rfl | hpos
  · have hzero : Reads (Scalar.ofNat 0) 0 := ⟨by decide +kernel, by decide +kernel⟩
    rw [Nat.cast_zero]
    exact ⟨hzero.isFinite, fun p _ hle => hzero.value_eq ▸ hle, fun p _ hle => hzero.value_eq ▸ hle⟩
  · have hlow : -(2 ^ 11 + (count.log2 : Int)) ≤ 0 := by omega
    obtain ⟨u, hu, hround⟩ := exists_ofScientific hpos hlow (by norm_num)
    have hmodel : (Scalar.ofNat count : Float) = .ofModel (.pack u) := hu
    have hrounded := hround.rounded
    rw [zpow_zero, mul_one, UnpackedFloat.Sign.apply, Int.cast_one, one_mul] at hrounded
    rw [hmodel]
    exact hrounded.rounds (natCast_le_largest h)

end DropTable.Binary64
