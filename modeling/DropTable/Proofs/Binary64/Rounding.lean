import DropTable.Proofs.Binary64.Nearest
/-!
# Rounding does not step over doubles

Rounding goes to a nearest whole number of units, and a number that needs no rounding is a whole
number of units or too small for the units to matter.  So it stays on its side of the exact value:
below the rounded one if it was no more than the exact value, and above it if it was no less.
-/

namespace DropTable.Binary64

open Float.Model Float.Model.UnpackedFloat

/-! ## Numbers that need no rounding -/

/-- A number that 53 bits from the least exponent on are enough for. -/
def Representable (q : Rat) : Prop :=
  ∃ significand exponent : Int, |significand| ≤ 2 ^ 53 ∧ -1074 ≤ exponent ∧
    q = significand * 2 ^ exponent

/-- A representable number is a whole number of units, or it is too small for the unit to matter. -/
private theorem Representable.units_or_small {q : Rat} (h : Representable q) (last : Int) :
    (∃ units : Int, q = units * 2 ^ last) ∨ |q| ≤ 2 ^ 52 * 2 ^ last ∧ -1074 < last := by
  obtain ⟨significand, exponent, hbits, hleast, rfl⟩ := h
  by_cases hexponent : last ≤ exponent
  · refine .inl ⟨significand * 2 ^ (exponent - last).toNat, ?_⟩
    rw [two_zpow_mul hexponent]
    push_cast
    ring
  · refine .inr ⟨?_, by omega⟩
    have hhalf : (2 : Rat) ^ exponent ≤ 2 ^ (last - 1) :=
      zpow_le_zpow_right₀ (by norm_num) (by omega)
    have hlast : (2 : Rat) ^ last = 2 ^ (last - 1) * 2 := by
      rw [← zpow_add_one₀ (by norm_num), sub_add_cancel]
    have hcast : |(significand : Rat)| ≤ 2 ^ 53 := by exact_mod_cast hbits
    have hpower : (0 : Rat) < 2 ^ exponent := zpow_pos two_pos exponent
    rw [abs_mul, abs_of_pos hpower, hlast]
    calc |(significand : Rat)| * 2 ^ exponent ≤ 2 ^ 53 * 2 ^ (last - 1) :=
          mul_le_mul hcast hhalf hpower.le (by positivity)
      _ = 2 ^ 52 * (2 ^ (last - 1) * 2) := by ring

section Sides

variable {last : Int} {p q : Rat} {n : Nat}

theorem Representable.le_nearest (hp : Representable p) (hscaled : Scaled last q)
    (hn : Nearest n (q / 2 ^ last)) (hle : p ≤ q) : p ≤ n * 2 ^ last := by
  have hpower : (0 : Rat) < 2 ^ last := zpow_pos two_pos last
  obtain ⟨units, rfl⟩ | ⟨hsmall, hleast⟩ := hp.units_or_small last
  · have hunits := hn.int_le ((le_div_iff₀ hpower).2 hle)
    exact mul_le_mul_of_nonneg_right (by exact_mod_cast hunits) hpower.le
  · have hfull := hscaled.le_nearest hleast hn
    refine (le_abs_self p).trans (hsmall.trans ?_)
    exact mul_le_mul_of_nonneg_right (by exact_mod_cast hfull) hpower.le

theorem Representable.nearest_le (hp : Representable p) (hscaled : Scaled last q)
    (hn : Nearest n (q / 2 ^ last)) (hle : q ≤ p) : n * 2 ^ last ≤ p := by
  have hpower : (0 : Rat) < 2 ^ last := zpow_pos two_pos last
  obtain ⟨units, rfl⟩ | ⟨hsmall, hleast⟩ := hp.units_or_small last
  · have hunits := hn.le_int ((div_le_iff₀ hpower).2 hle)
    exact mul_le_mul_of_nonneg_right (by exact_mod_cast hunits) hpower.le
  · -- The exact value is then the power of two at which the units get larger.
    have hmost : q / 2 ^ last ≤ (2 ^ 52 : Int) := by
      rw [div_le_iff₀ hpower]
      exact_mod_cast hle.trans ((le_abs_self p).trans hsmall)
    have hunits := hn.le_int hmost
    calc (n : Rat) * 2 ^ last ≤ 2 ^ 52 * 2 ^ last :=
          mul_le_mul_of_nonneg_right (by exact_mod_cast hunits) hpower.le
      _ ≤ q := hscaled.full hleast
      _ ≤ p := hle

end Sides

/-! ## Rounded values -/

/-- The number that a double stands for, and zero for what is not finite. -/
def valueOf : UnpackedFloat → Rat
  | .finite s significand exponent _ => s.apply significand * 2 ^ exponent
  | _ => 0

/-- A canonical double from which no number that needs no rounding separates an exact value. -/
structure Rounded (u : UnpackedFloat) (q : Rat) : Prop where
  proper : Proper u
  isFinite : u.isFinite = true
  le_of_le : ∀ p, Representable p → p ≤ q → p ≤ valueOf u
  ge_of_ge : ∀ p, Representable p → q ≤ p → valueOf u ≤ p

theorem Representable.neg {q : Rat} (h : Representable q) : Representable (-q) := by
  obtain ⟨significand, exponent, hbits, hleast, rfl⟩ := h
  refine ⟨-significand, exponent, by rwa [abs_neg], hleast, ?_⟩
  push_cast
  ring

theorem Rounded.refl {u : UnpackedFloat} (hproper : Proper u) (hfinite : u.isFinite = true) :
    Rounded u (valueOf u) :=
  ⟨hproper, hfinite, fun _ _ h => h, fun _ _ h => h⟩

private theorem isFinite_carried (s : Sign) (significand : Nat) (exponent : Int) :
    (carried s significand exponent).isFinite = true := by
  unfold carried
  split
  · rfl
  · split <;> rfl

private theorem valueOf_carried (s : Sign) {significand : Nat} (h : significand ≤ 2 ^ 53)
    (exponent : Int) :
    valueOf (carried s significand exponent) = s.apply significand * 2 ^ exponent := by
  unfold carried
  split
  case isTrue hzero => cases s <;> simp [hzero, valueOf, Sign.apply]
  case isFalse =>
    split
    case isTrue => rfl
    case isFalse hcarry =>
      have hpower : significand = 2 ^ 53 := by omega
      have hdouble : (2 : Rat) ^ (exponent + 1) = 2 ^ exponent * 2 := zpow_add_one₀ (by norm_num) _
      rw [hpower, valueOf, hdouble]
      cases s <;> simp only [Sign.apply] <;> push_cast <;> ring

theorem RoundsTo.valueOf_le {q q' : Rat} {u u' : UnpackedFloat} (h : RoundsTo .positive q u)
    (h' : RoundsTo .positive q' u') (hle : q ≤ q') : valueOf u ≤ valueOf u' := by
  obtain ⟨n, last, rfl, hscaled, hn⟩ := h
  obtain ⟨n', last', rfl, hscaled', hn'⟩ := h'
  have hmost := hscaled.nearest_le hn
  rw [valueOf_carried .positive hmost, valueOf_carried .positive (hscaled'.nearest_le hn')]
  change (n : Rat) * 2 ^ last ≤ n' * 2 ^ last'
  have hpower : (0 : Rat) < 2 ^ last := zpow_pos two_pos last
  rcases (hscaled.last_le hscaled' hle).lt_or_eq with hlt | rfl
  · -- The greater number has at least 53 bits of the greater unit.
    have hfull := hscaled'.le_nearest (hscaled.least.trans_lt hlt) hn'
    calc (n : Rat) * 2 ^ last ≤ 2 ^ 53 * 2 ^ last :=
          mul_le_mul_of_nonneg_right (by exact_mod_cast hmost) hpower.le
      _ = 2 ^ 52 * (2 ^ last * 2) := by ring
      _ ≤ n' * 2 ^ last' :=
          mul_le_mul (by exact_mod_cast hfull) (two_zpow_mul_two_le hlt) (by positivity)
            (by positivity)
  · have hunits := hn.mono hn' (div_le_div_of_nonneg_right hle hpower.le)
    exact mul_le_mul_of_nonneg_right (by exact_mod_cast hunits) hpower.le

private theorem proper_carried (s : Sign) {significand : Nat} {exponent : Int}
    (hleast : -1074 ≤ exponent)
    (hfull : -1074 < exponent → significand ≠ 0 → 2 ^ 52 ≤ significand) :
    Proper (carried s significand exponent) := by
  unfold carried
  split
  case isTrue => trivial
  case isFalse hpos =>
    split
    case isTrue hlt => exact ⟨hlt, hleast, by have := hfull; omega⟩
    case isFalse => exact ⟨by norm_num, by omega, .inl le_rfl⟩

theorem apply_eq_mul (s : Sign) (n : Int) : (s.apply n : Rat) = s.apply 1 * n := by
  cases s <;> simp [Sign.apply]

theorem RoundsTo.rounded {s : Sign} {q : Rat} {u : UnpackedFloat} (h : RoundsTo s q u) :
    Rounded u (s.apply 1 * q) := by
  obtain ⟨n, last, rfl, hscaled, hn⟩ := h
  have hvalue := valueOf_carried s (hscaled.nearest_le hn) last
  rw [apply_eq_mul, Int.cast_natCast, mul_assoc] at hvalue
  refine ⟨proper_carried s hscaled.least fun hleast _ => hscaled.le_nearest hleast hn,
    isFinite_carried _ _ _, ?_, ?_⟩
  · intro p hp hle
    rw [hvalue]
    cases s with
    | positive =>
        simp only [Sign.apply, Int.cast_one, one_mul] at hle ⊢
        exact hp.le_nearest hscaled hn hle
    | negative =>
        simp only [Sign.apply, Int.cast_neg, Int.cast_one, neg_one_mul] at hle ⊢
        exact le_neg_of_le_neg (hp.neg.nearest_le hscaled hn (le_neg_of_le_neg hle))
  · intro p hp hge
    rw [hvalue]
    cases s with
    | positive =>
        simp only [Sign.apply, Int.cast_one, one_mul] at hge ⊢
        exact hp.nearest_le hscaled hn hge
    | negative =>
        simp only [Sign.apply, Int.cast_neg, Int.cast_one, neg_one_mul] at hge ⊢
        exact neg_le_of_neg_le (hp.neg.le_nearest hscaled hn (neg_le_of_neg_le hge))

private theorem rounded_roundWithAccuracy (s : Sign) {significand : Nat} {exponent : Int}
    (h : exponent ≤ lastExponent significand exponent) :
    Rounded (roundWithAccuracy Format.binary64 s significand exponent .exact)
      (s.apply significand * 2 ^ exponent) := by
  rw [apply_eq_mul, mul_assoc]
  exact (roundsTo_roundWithAccuracy s (tracks_exact significand) h).rounded

private theorem log2_shiftLeft {significand : Nat} (hpos : 0 < significand) (count : Nat) :
    (significand <<< count).log2 = significand.log2 + count := by
  rw [Nat.shiftLeft_eq, Nat.log2_eq_iff (by positivity), Nat.add_right_comm, Nat.pow_add, Nat.pow_add]
  have hlow := Nat.log2_self_le (Nat.ne_of_gt hpos)
  have hhigh := Nat.lt_log2_self (n := significand)
  exact ⟨Nat.mul_le_mul_right _ hlow, Nat.mul_lt_mul_of_pos_right hhigh (by positivity)⟩

theorem decreaseExponent_value (s : Sign) (significand : Nat) (exponent target : Int) :
    (s.apply (decreaseExponent significand exponent target).1 : Rat) *
        2 ^ (decreaseExponent significand exponent target).2 =
      s.apply significand * 2 ^ exponent := by
  have hcount : (exponent - (exponent - (exponent - target).toNat)).toNat =
      (exponent - target).toNat := by omega
  simp only [decreaseExponent]
  rw [two_zpow_mul (Int.sub_le_self exponent (Int.natCast_nonneg (exponent - target).toNat)), hcount]
  cases s <;> simp only [Sign.apply, Nat.shiftLeft_eq] <;> push_cast <;> ring

theorem rounded_round (s : Sign) {significand : Nat} (hpos : 0 < significand) (exponent : Int) :
    Rounded (UnpackedFloat.round Format.binary64 s significand exponent)
      (s.apply significand * 2 ^ exponent) := by
  let count := (exponent - lastExponent significand exponent).toNat
  have hlast : lastExponent (significand <<< count) (exponent - count) =
      lastExponent significand exponent := by
    rw [lastExponent, lastExponent, log2_shiftLeft hpos]
    push_cast
    congr 2
    ring
  have hle : exponent - count ≤ lastExponent (significand <<< count) (exponent - count) := by
    rw [hlast]
    omega
  rw [← decreaseExponent_value s significand exponent (lastExponent significand exponent)]
  exact rounded_roundWithAccuracy s hle

theorem rounded_zero (s : Sign) : Rounded (.zero s) 0 := .refl trivial rfl

theorem rounded_normalize (significand exponent : Int) (zeroSign : Sign) :
    Rounded (UnpackedFloat.normalize Format.binary64 significand exponent zeroSign)
      (significand * 2 ^ exponent) := by
  unfold UnpackedFloat.normalize
  split
  case h_1 hlt =>
    rw [Std.compare_eq_lt] at hlt
    have hpos : 0 < (-significand).toNat := by omega
    have hvalue : Sign.negative.apply (-significand).toNat = significand := by
      rw [Sign.apply, Int.toNat_of_nonneg (by omega), neg_neg]
    have hround := rounded_round .negative hpos exponent
    rwa [hvalue] at hround
  case h_2 heq =>
    rw [Std.compare_eq_iff_eq] at heq
    simpa [heq] using rounded_zero zeroSign
  case h_3 hgt =>
    rw [Std.compare_eq_gt] at hgt
    have hpos : 0 < significand.toNat := by omega
    have hvalue : Sign.positive.apply significand.toNat = significand :=
      Int.toNat_of_nonneg (by omega)
    have hround := rounded_round .positive hpos exponent
    rwa [hvalue] at hround

end DropTable.Binary64
