import Mathlib.Algebra.Order.Field.Power
import Mathlib.Tactic.FieldSimp
import Mathlib.Tactic.Positivity
import Mathlib.Tactic.Ring
import DropTable.Proofs.Binary64.Packing
/-!
# Rounding goes to the nearest double

The exact result of an operation is a significand and an exponent, of which the significand may be
too long.  Rounding cuts it to 53 bits, or to those above the least exponent.  The bits cut off say
whether the exact value is below the middle of two whole numbers of units, on it or above it.  So
the rounded significand is the nearest whole number, the even one of two.
-/

namespace DropTable.Binary64

open Float.Model Float.Model.UnpackedFloat

/-! ## Nearest whole numbers -/

/-- A whole number nearest to a number, and the even one if there are two. -/
structure Nearest (n : Nat) (q : Rat) : Prop where
  le_add : q ≤ n + 1 / 2
  sub_le : n - 1 / 2 ≤ q
  even : q = n + 1 / 2 ∨ q = n - 1 / 2 → n % 2 = 0

theorem Nearest.mono {n n' : Nat} {q q' : Rat} (h : Nearest n q) (h' : Nearest n' q')
    (hle : q ≤ q') : n ≤ n' := by
  by_contra hlt
  have hstep : (n' : Rat) + 1 ≤ n := by exact_mod_cast not_le.1 hlt
  have hlow := h.sub_le
  have hhigh := h'.le_add
  -- Both numbers are then the middle of two whole numbers, and both roundings are even.
  have heven := h.even (.inr (by linarith))
  have heven' := h'.even (.inl (by linarith))
  have hnext : (n : Rat) = n' + 1 := by linarith
  have hnext' : n = n' + 1 := by exact_mod_cast hnext
  omega

theorem Nearest.unique {n n' : Nat} {q : Rat} (h : Nearest n q) (h' : Nearest n' q) : n = n' :=
  Nat.le_antisymm (h.mono h' le_rfl) (h'.mono h le_rfl)

theorem Nearest.int_le {n : Nat} {q : Rat} (h : Nearest n q) {units : Int} (hle : units ≤ q) :
    units ≤ n := by
  by_contra hlt
  have hstep : (n : Rat) + 1 ≤ units := by exact_mod_cast not_le.1 hlt
  linarith [h.le_add]

theorem Nearest.le_int {n : Nat} {q : Rat} (h : Nearest n q) {units : Int} (hle : q ≤ units) :
    n ≤ units := by
  by_contra hlt
  have hstep : (units : Rat) + 1 ≤ n := by exact_mod_cast not_le.1 hlt
  linarith [h.sub_le]

/-! ## What the bits cut off say -/

theorem mantissa_shiftRight (m : ExtendedMantissa) (count : Nat) :
    (m >>> count).mantissa = m.mantissa / 2 ^ count := by
  induction count with
  | zero => simp [HShiftRight.hShiftRight, Nat.repeat]
  | succ count ih =>
      calc (m >>> (count + 1)).mantissa = (m >>> count).mantissa / 2 := rfl
        _ = m.mantissa / 2 ^ (count + 1) := by rw [ih, Nat.div_div_eq_div_mul, Nat.pow_succ]

private theorem mantissa_ofMantissaAndAccuracy (significand : Nat) (accuracy : Accuracy) :
    (ExtendedMantissa.ofMantissaAndAccuracy significand accuracy).mantissa = significand := by
  cases accuracy with
  | exact => rfl
  | inexact order => cases order <;> rfl

/-- Where a number lies between its whole part and the next whole number, as two bits have it. -/
def Tracks : ExtendedMantissa → Rat → Prop
  | ⟨n, false, false⟩, q => q = n
  | ⟨n, false, true⟩, q => n < q ∧ q < n + 1 / 2
  | ⟨n, true, false⟩, q => q = n + 1 / 2
  | ⟨n, true, true⟩, q => n + 1 / 2 < q ∧ q < n + 1

theorem Tracks.bounds {m : ExtendedMantissa} {q : Rat} (h : Tracks m q) :
    m.mantissa ≤ q ∧ q < m.mantissa + 1 := by
  obtain ⟨n, roundBit, stickyBit⟩ := m
  cases roundBit <;> cases stickyBit <;> simp only [Tracks] at h <;> constructor <;> linarith

private theorem Tracks.nearest {m : ExtendedMantissa} {q : Rat} (h : Tracks m q) :
    Nearest m.roundedMantissa q := by
  obtain ⟨n, roundBit, stickyBit⟩ := m
  cases roundBit with
  | false =>
      have hrounded : (⟨n, false, stickyBit⟩ : ExtendedMantissa).roundedMantissa = n := by
        cases stickyBit <;> rfl
      rw [hrounded]
      have hlow : (n : Rat) ≤ q ∧ q < n + 1 / 2 := by
        cases stickyBit <;> simp only [Tracks] at h <;> constructor <;> linarith
      refine ⟨hlow.2.le, by linarith, fun htie => ?_⟩
      rcases htie with htie | htie <;> linarith
  | true =>
      cases stickyBit with
      | false =>
          simp only [Tracks] at h
          change Nearest (n + n % 2) q
          rcases Nat.mod_two_eq_zero_or_one n with hn | hn
          · rw [hn, add_zero]
            exact ⟨h.le, by linarith, fun _ => hn⟩
          · rw [hn]
            refine ⟨?_, ?_, fun _ => by omega⟩ <;> push_cast <;> linarith
      | true =>
          simp only [Tracks] at h
          change Nearest (n + 1) q
          refine ⟨?_, ?_, fun htie => ?_⟩
          · push_cast
            linarith
          · push_cast
            linarith
          · push_cast at htie
            rcases htie with htie | htie <;> linarith

/-- A shift halves the number, and the sticky bit remembers what is no longer seen. -/
private theorem Tracks.shiftRightOne {m : ExtendedMantissa} {q : Rat} (h : Tracks m q) :
    Tracks m.shiftRightOne (q / 2) := by
  obtain ⟨n, roundBit, stickyBit⟩ := m
  have hsplit : (n : Rat) = 2 * (n / 2 : Nat) + (n % 2 : Nat) := by
    exact_mod_cast (Nat.div_add_mod n 2).symm
  rw [ExtendedMantissa.shiftRightOne]
  generalize n / 2 = half at hsplit
  rcases Nat.mod_two_eq_zero_or_one n with hn | hn
  · rw [hn, Nat.cast_zero, add_zero] at hsplit
    rw [hn]
    cases roundBit <;> cases stickyBit <;> simp [Tracks, hsplit] at h ⊢ <;>
      first | linarith | constructor <;> linarith
  · rw [hn, Nat.cast_one] at hsplit
    rw [hn]
    cases roundBit <;> cases stickyBit <;> simp [Tracks, hsplit] at h ⊢ <;>
      first | linarith | constructor <;> linarith

private theorem Tracks.shiftRight {m : ExtendedMantissa} {q : Rat} (h : Tracks m q) (count : Nat) :
    Tracks (m >>> count) (q / 2 ^ count) := by
  induction count with
  | zero => simpa [HShiftRight.hShiftRight, Nat.repeat] using h
  | succ count ih =>
      rw [pow_succ, ← div_div]
      exact ih.shiftRightOne

theorem tracks_exact (n : Nat) : Tracks (.ofMantissaAndAccuracy n .exact) n := rfl

theorem tracks_div (n : Nat) {d : Nat} (hd : 0 < d) :
    Tracks (.ofMantissaAndAccuracy (n / d) (accuracyOfFraction (n % d) d)) (n / d) := by
  have hdpos : (0 : Rat) < d := by exact_mod_cast hd
  have hlt : ((n % d : Nat) : Rat) < d := by exact_mod_cast Nat.mod_lt n hd
  have hquotient : (n : Rat) / d = (n / d : Nat) + (n % d : Nat) / d := by
    rw [add_div' _ _ _ hdpos.ne', div_left_inj' hdpos.ne']
    exact_mod_cast (Nat.div_add_mod' n d).symm
  rw [hquotient]
  generalize n / d = quotient
  generalize n % d = rest at hlt
  unfold accuracyOfFraction
  split
  case isTrue hzero => simp [hzero, Tracks, ExtendedMantissa.ofMantissaAndAccuracy]
  case isFalse hne =>
    have hpos : (0 : Rat) < rest := by exact_mod_cast Nat.pos_of_ne_zero hne
    have hfraction : 0 < (rest : Rat) / d ∧ (rest : Rat) / d < 1 :=
      ⟨div_pos hpos hdpos, (div_lt_one hdpos).2 hlt⟩
    rcases lt_trichotomy (2 * rest) d with hhalf | hhalf | hhalf
    · have hbelow : (rest : Rat) / d < 1 / 2 := by
        rw [div_lt_div_iff₀ hdpos two_pos, one_mul, mul_comm]
        exact_mod_cast hhalf
      rw [compare_lt_iff_lt.2 hhalf]
      constructor <;> linarith
    · have hmiddle : (rest : Rat) / d = 1 / 2 := by
        rw [div_eq_div_iff hdpos.ne' two_ne_zero, one_mul, mul_comm]
        exact_mod_cast hhalf
      rw [compare_eq_iff_eq.2 hhalf, hmiddle]
      rfl
    · have habove : 1 / 2 < (rest : Rat) / d := by
        rw [div_lt_div_iff₀ two_pos hdpos, one_mul, mul_comm]
        exact_mod_cast hhalf
      rw [compare_gt_iff_gt.2 hhalf]
      constructor <;> linarith

/-! ## The result of rounding -/

/-- The exponent of the last bit that is kept. -/
def lastExponent (significand : Nat) (exponent : Int) : Int :=
  max (significand.log2 + 1 + exponent - 53) (-1074)

private theorem lastExponent_of_lt {significand : Nat} {exponent : Int} (h : significand < 2 ^ 53)
    (hleast : -1074 ≤ exponent) : lastExponent significand exponent ≤ exponent := by
  have hlog : significand.log2 ≤ 52 := by
    by_cases hzero : significand = 0
    · simp [hzero]
    · have := (Nat.log2_lt hzero).2 h
      omega
  unfold lastExponent
  omega

/-- A rounded significand with the exponent of its last bit.  Adding one may have carried beyond
53 bits. -/
def carried (s : Sign) (significand : Nat) (exponent : Int) : UnpackedFloat :=
  if h : significand = 0 then .zero s
  else if significand < 2 ^ 53 then .finite s significand exponent (Nat.pos_of_ne_zero h)
  else .finite s (2 ^ 52) (exponent + 1) (by positivity)

private theorem shiftToTargetExponent_eq (significand : Nat) (exponent : Int)
    (accuracy : Accuracy) :
    shiftToTargetExponent Format.binary64 significand exponent accuracy =
      (ExtendedMantissa.ofMantissaAndAccuracy significand accuracy >>>
          (lastExponent significand exponent - exponent).toNat,
        exponent + (lastExponent significand exponent - exponent).toNat) := rfl

private theorem shift_of_lt {significand : Nat} {exponent : Int} (h : significand < 2 ^ 53)
    (hleast : -1074 ≤ exponent) :
    shiftToTargetExponent Format.binary64 significand exponent .exact =
      (⟨significand, false, false⟩, exponent) := by
  have hnothing : (lastExponent significand exponent - exponent).toNat = 0 := by
    have := lastExponent_of_lt h hleast
    omega
  rw [shiftToTargetExponent_eq, hnothing, Int.natCast_zero, add_zero]
  rfl

private theorem shift_of_carry {exponent : Int} (hleast : -1074 ≤ exponent) :
    shiftToTargetExponent Format.binary64 (2 ^ 53) exponent .exact =
      (⟨2 ^ 52, false, false⟩, exponent + 1) := by
  have hone : (lastExponent (2 ^ 53) exponent - exponent).toNat = 1 := by
    rw [lastExponent, Nat.log2_two_pow]
    omega
  rw [shiftToTargetExponent_eq, hone]
  rfl

/-- The second cut only makes room for a carry. -/
private theorem roundWithAccuracy_eq_carried (s : Sign) {significand n : Nat} {exponent : Int}
    {accuracy : Accuracy} (h : exponent ≤ lastExponent significand exponent)
    (hn : (ExtendedMantissa.ofMantissaAndAccuracy significand accuracy >>>
      (lastExponent significand exponent - exponent).toNat).roundedMantissa = n)
    (hle : n ≤ 2 ^ 53) :
    roundWithAccuracy Format.binary64 s significand exponent accuracy =
      carried s n (lastExponent significand exponent) := by
  have hexponent : exponent + (lastExponent significand exponent - exponent).toNat =
      lastExponent significand exponent := by omega
  have hleast : -1074 ≤ lastExponent significand exponent := le_max_right _ _
  unfold roundWithAccuracy
  rw [shiftToTargetExponent_eq, hexponent]
  dsimp only
  rw [hn, carried]
  generalize lastExponent significand exponent = last at *
  rcases hle.lt_or_eq with hlt | rfl
  · simp only [shift_of_lt hlt hleast, if_pos hlt]
  · simp only [shift_of_carry hleast]
    rfl

theorem two_zpow_mul {exponent last : Int} (h : exponent ≤ last) :
    (2 : Rat) ^ last = 2 ^ (last - exponent).toNat * 2 ^ exponent := by
  rw [← zpow_natCast, ← zpow_add₀ (by norm_num)]
  congr 1
  omega

theorem two_zpow_mul_two_le {exponent last : Int} (h : exponent < last) :
    (2 : Rat) ^ exponent * 2 ≤ 2 ^ last := by
  rw [← zpow_add_one₀ two_ne_zero]
  exact zpow_le_zpow_right₀ one_le_two h

/-- The exponent at which a number has 53 bits before the point, or the least one. -/
structure Scaled (last : Int) (q : Rat) : Prop where
  least : -1074 ≤ last
  lt : q < 2 ^ 53 * 2 ^ last
  full : -1074 < last → 2 ^ 52 * 2 ^ last ≤ q

/-- A number is rounded to a double through a nearest whole number of its units. -/
def RoundsTo (s : Sign) (q : Rat) (u : UnpackedFloat) : Prop :=
  ∃ n last, u = carried s n last ∧ Scaled last q ∧ Nearest n (q / 2 ^ last)

theorem Scaled.last_le {last last' : Int} {q q' : Rat} (h : Scaled last q) (h' : Scaled last' q')
    (hle : q ≤ q') : last ≤ last' := by
  by_contra hlt
  have hfull := h.full (h'.least.trans_lt (not_le.1 hlt))
  have hdouble : (2 : Rat) ^ last' * 2 ≤ 2 ^ last := two_zpow_mul_two_le (not_le.1 hlt)
  linarith [h'.lt]

theorem Scaled.units_lt {last : Int} {q : Rat} (h : Scaled last q) : q / 2 ^ last < 2 ^ 53 :=
  (div_lt_iff₀ (zpow_pos two_pos last)).2 h.lt

private theorem Scaled.le_units {last : Int} {q : Rat} (h : Scaled last q) (hleast : -1074 < last) :
    2 ^ 52 ≤ q / 2 ^ last :=
  (le_div_iff₀ (zpow_pos two_pos last)).2 (h.full hleast)

theorem Scaled.nearest_le {last : Int} {q : Rat} (h : Scaled last q) {n : Nat}
    (hn : Nearest n (q / 2 ^ last)) : n ≤ 2 ^ 53 := by
  have hmost : q / 2 ^ last ≤ (2 ^ 53 : Int) := by exact_mod_cast h.units_lt.le
  exact_mod_cast hn.le_int hmost

theorem Scaled.le_nearest {last : Int} {q : Rat} (h : Scaled last q) (hleast : -1074 < last)
    {n : Nat} (hn : Nearest n (q / 2 ^ last)) : 2 ^ 52 ≤ n := by
  have hfull : (2 ^ 52 : Int) ≤ q / 2 ^ last := by exact_mod_cast h.le_units hleast
  exact_mod_cast hn.int_le hfull

private theorem scaled_lastExponent {significand : Nat} {exponent : Int} {q : Rat}
    (hle : significand ≤ q) (hlt : q < significand + 1)
    (h : exponent ≤ lastExponent significand exponent) :
    Scaled (lastExponent significand exponent) (q * 2 ^ exponent) := by
  have hpower : (0 : Rat) < 2 ^ exponent := zpow_pos two_pos exponent
  refine ⟨le_max_right _ _, ?_, ?_⟩
  · have hbits : (significand : Rat) + 1 ≤ 2 ^ (significand.log2 + 1) := by
      exact_mod_cast Nat.lt_log2_self
    have hscale : (2 : Rat) ^ (significand.log2 + 1) * 2 ^ exponent ≤
        2 ^ 53 * 2 ^ lastExponent significand exponent := by
      rw [← zpow_natCast, ← zpow_natCast, ← zpow_add₀ two_ne_zero, ← zpow_add₀ two_ne_zero]
      apply zpow_le_zpow_right₀ one_le_two
      unfold lastExponent
      push_cast
      omega
    exact (mul_lt_mul_of_pos_right (hlt.trans_le hbits) hpower).trans_le hscale
  · intro hleast
    have hpos : significand ≠ 0 := by
      rintro rfl
      unfold lastExponent at h hleast
      rw [Nat.log2_zero] at h hleast
      omega
    have hbits : (2 : Rat) ^ significand.log2 ≤ significand := by
      exact_mod_cast Nat.log2_self_le hpos
    have hscale : (2 : Rat) ^ 52 * 2 ^ lastExponent significand exponent =
        2 ^ significand.log2 * 2 ^ exponent := by
      rw [← zpow_natCast, ← zpow_natCast, ← zpow_add₀ two_ne_zero, ← zpow_add₀ two_ne_zero]
      congr 1
      unfold lastExponent at *
      push_cast
      omega
    rw [hscale]
    exact mul_le_mul_of_nonneg_right (hbits.trans hle) hpower.le

theorem roundsTo_roundWithAccuracy (s : Sign) {significand : Nat} {exponent : Int}
    {accuracy : Accuracy} {q : Rat}
    (h : Tracks (.ofMantissaAndAccuracy significand accuracy) q)
    (hexponent : exponent ≤ lastExponent significand exponent) :
    RoundsTo s (q * 2 ^ exponent)
      (roundWithAccuracy Format.binary64 s significand exponent accuracy) := by
  obtain ⟨hle, hlt⟩ := h.bounds
  rw [mantissa_ofMantissaAndAccuracy] at hle hlt
  have hscaled := scaled_lastExponent hle hlt hexponent
  have hunits : q * 2 ^ exponent / 2 ^ lastExponent significand exponent =
      q / 2 ^ (lastExponent significand exponent - exponent).toNat := by
    rw [two_zpow_mul hexponent]
    exact mul_div_mul_right _ _ (zpow_pos two_pos exponent).ne'
  have hnearest := (h.shiftRight (lastExponent significand exponent - exponent).toNat).nearest
  rw [← hunits] at hnearest
  exact ⟨_, _, roundWithAccuracy_eq_carried s hexponent rfl (hscaled.nearest_le hnearest), hscaled,
    hnearest⟩

end DropTable.Binary64
