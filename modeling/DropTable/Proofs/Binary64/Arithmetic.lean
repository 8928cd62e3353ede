import Mathlib.Order.Compare
import Mathlib.Tactic.Linarith
import DropTable.Proofs.Binary64.Rounding
/-!
# Arithmetic on doubles

Sums, differences and products of finite doubles are rounded, and comparisons are those of the
values.
-/

namespace DropTable.Binary64

open Float.Model Float.Model.UnpackedFloat

theorem Fits.proper {u : UnpackedFloat} (h : Fits u) : Proper u := by
  cases u with
  | finite s significand exponent hpos => exact h.1
  | _ => trivial

/-! ## Sums, differences, products -/

private theorem decreaseExponent_apply (s : Sign) (significand : Nat) {exponent target : Int}
    (h : target ≤ exponent) :
    (s.apply (decreaseExponent significand exponent target).1 : Rat) * 2 ^ target =
      s.apply significand * 2 ^ exponent := by
  have htarget : (decreaseExponent significand exponent target).2 = target := by
    simp only [decreaseExponent]
    omega
  have hvalue := decreaseExponent_value s significand exponent target
  rwa [htarget] at hvalue

theorem cases_of_isFinite {u : UnpackedFloat} (h : u.isFinite = true) :
    (∃ s, u = .zero s) ∨ ∃ s significand exponent hpos, u = .finite s significand exponent hpos := by
  cases u with
  | notANumber => contradiction
  | infinity s => contradiction
  | zero s => exact .inl ⟨s, rfl⟩
  | finite s significand exponent hpos => exact .inr ⟨s, significand, exponent, hpos, rfl⟩

theorem valueOf_zero (s : Sign) : valueOf (.zero s) = 0 := rfl

theorem rounded_add {u v : UnpackedFloat} (hu : Proper u) (hv : Proper v)
    (hufinite : u.isFinite = true) (hvfinite : v.isFinite = true) :
    Rounded (UnpackedFloat.add Format.binary64 u v) (valueOf u + valueOf v) := by
  obtain ⟨s, rfl⟩ | ⟨s, significand, exponent, hpos, rfl⟩ := cases_of_isFinite hufinite
  · rw [valueOf_zero, zero_add]
    obtain ⟨s', rfl⟩ | ⟨s', significand', exponent', hpos', rfl⟩ := cases_of_isFinite hvfinite
    · cases s <;> cases s' <;> exact rounded_zero _
    · exact .refl hv rfl
  · obtain ⟨s', rfl⟩ | ⟨s', significand', exponent', hpos', rfl⟩ := cases_of_isFinite hvfinite
    · rw [valueOf_zero, add_zero]
      exact .refl hu rfl
    · have hsum := rounded_normalize
        (s.apply (decreaseExponent significand exponent (min exponent exponent')).1 +
          s'.apply (decreaseExponent significand' exponent' (min exponent exponent')).1)
        (min exponent exponent') .positive
      rw [Int.cast_add, add_mul, decreaseExponent_apply s _ (min_le_left _ _),
        decreaseExponent_apply s' _ (min_le_right _ _)] at hsum
      exact hsum

private theorem apply_neg (s : Sign) (n : Int) : (-s).apply n = -s.apply n := by
  cases s with
  | negative => exact (neg_neg n).symm
  | positive => rfl

private theorem sub_eq_add (u v : UnpackedFloat) :
    UnpackedFloat.sub Format.binary64 u v = UnpackedFloat.add Format.binary64 u v.neg := by
  cases u <;> cases v <;> try rfl
  simp only [UnpackedFloat.sub, UnpackedFloat.add, UnpackedFloat.neg, apply_neg, Int.sub_eq_add_neg]

theorem valueOf_neg (u : UnpackedFloat) : valueOf u.neg = -valueOf u := by
  cases u with
  | finite s significand exponent hpos =>
      simp only [UnpackedFloat.neg, valueOf, apply_neg]
      push_cast
      ring
  | _ => exact neg_zero.symm

theorem rounded_sub {u v : UnpackedFloat} (hu : Proper u) (hv : Proper v)
    (hufinite : u.isFinite = true) (hvfinite : v.isFinite = true) :
    Rounded (UnpackedFloat.sub Format.binary64 u v) (valueOf u - valueOf v) := by
  rw [sub_eq_add, sub_eq_add_neg, ← valueOf_neg]
  refine rounded_add hu ?_ hufinite ?_
  · cases v <;> exact hv
  · cases v <;> exact hvfinite

private theorem apply_mul (s s' : Sign) (n n' : Int) :
    (s * s').apply (n * n') = s.apply n * s'.apply n' := by
  cases s with
  | negative =>
      cases s' with
      | negative => exact (neg_mul_neg n n').symm
      | positive => exact (neg_mul n n').symm
  | positive =>
      cases s' with
      | negative => exact (mul_neg n n').symm
      | positive => rfl

theorem Canonical.add_le_lastExponent {m n : Nat} {e f : Int} (hm : Canonical m e)
    (hn : Canonical n f) (hmpos : 0 < m) (hnpos : 0 < n) : e + f ≤ lastExponent (m * n) (e + f) := by
  have hlast : e + f ≤ -1074 ∨ 52 ≤ (m * n).log2 := by
    by_cases hfull : 2 ^ 52 ≤ m ∨ 2 ^ 52 ≤ n
    · right
      rw [Nat.le_log2 (by positivity)]
      rcases hfull with hfull | hfull
      · exact hfull.trans (Nat.le_mul_of_pos_right m hnpos)
      · exact hfull.trans (Nat.le_mul_of_pos_left n hmpos)
    · left
      have he := hm.full.resolve_left (fun h => hfull (.inl h))
      have hf := hn.full.resolve_left (fun h => hfull (.inr h))
      omega
  unfold lastExponent
  omega

theorem roundsTo_mul (s s' : Sign) {m n : Nat} {e f : Int} (hm : 0 < m) (hn : 0 < n)
    (h : e + f ≤ lastExponent (m * n) (e + f)) :
    RoundsTo (s * s') (m * 2 ^ e * (n * 2 ^ f))
      (UnpackedFloat.mul Format.binary64 (.finite s m e hm) (.finite s' n f hn)) := by
  have hproduct : (m : Rat) * 2 ^ e * (n * 2 ^ f) = (m * n : Nat) * 2 ^ (e + f) := by
    rw [zpow_add₀ two_ne_zero]
    push_cast
    ring
  rw [hproduct]
  exact roundsTo_roundWithAccuracy (s * s') (tracks_exact (m * n)) h

theorem rounded_mul {u v : UnpackedFloat} (hu : Proper u) (hv : Proper v)
    (hufinite : u.isFinite = true) (hvfinite : v.isFinite = true) :
    Rounded (UnpackedFloat.mul Format.binary64 u v) (valueOf u * valueOf v) := by
  obtain ⟨s, rfl⟩ | ⟨s, m, e, hm, rfl⟩ := cases_of_isFinite hufinite
  · rw [valueOf_zero, zero_mul]
    obtain ⟨s', rfl⟩ | ⟨s', n, f, hn, rfl⟩ := cases_of_isFinite hvfinite <;> exact rounded_zero _
  · obtain ⟨s', rfl⟩ | ⟨s', n, f, hn, rfl⟩ := cases_of_isFinite hvfinite
    · rw [valueOf_zero, mul_zero]
      exact rounded_zero _
    · have hvalue : ((s * s').apply 1 : Rat) * (m * 2 ^ e * (n * 2 ^ f)) =
          valueOf (.finite s m e hm) * valueOf (.finite s' n f hn) := by
        have hsigns : (s * s').apply 1 = s.apply 1 * s'.apply 1 := apply_mul s s' 1 1
        rw [hsigns, valueOf, valueOf, apply_eq_mul s, apply_eq_mul s']
        push_cast
        ring
      rw [← hvalue]
      exact (roundsTo_mul s s' hm hn (Canonical.add_le_lastExponent hu hv hm hn)).rounded

/-! ## Comparisons -/

private theorem Canonical.value_lt {m n : Nat} {e f : Int} (hm : Canonical m e) (hn : Canonical n f)
    (h : e < f) : (m : Rat) * 2 ^ e < n * 2 ^ f := by
  have hfull : (2 : Rat) ^ 52 ≤ n := by
    have := hm.least
    exact_mod_cast hn.full.resolve_right (by omega)
  have hbits : (m : Rat) < 2 ^ 53 := by exact_mod_cast hm.lt
  have hhalf : (2 : Rat) ^ e * 2 ≤ 2 ^ f := two_zpow_mul_two_le h
  calc (m : Rat) * 2 ^ e < 2 ^ 53 * 2 ^ e := mul_lt_mul_of_pos_right hbits (zpow_pos two_pos e)
    _ = 2 ^ 52 * (2 ^ e * 2) := by ring
    _ ≤ n * 2 ^ f := mul_le_mul hfull hhalf (by positivity) (by positivity)

private theorem Canonical.compares {m n : Nat} {e f : Int} (hm : Canonical m e)
    (hn : Canonical n f) :
    ((compare e f).then (compare m n)).Compares ((m : Rat) * 2 ^ e) (n * 2 ^ f) := by
  rcases lt_trichotomy e f with hlt | rfl | hgt
  · rw [compare_lt_iff_lt.2 hlt]
    exact hm.value_lt hn hlt
  · rw [compare_eq_iff_eq.2 rfl, Ordering.then]
    rcases lt_trichotomy m n with hlt | rfl | hgt
    · rw [compare_lt_iff_lt.2 hlt]
      exact mul_lt_mul_of_pos_right (by exact_mod_cast hlt) (zpow_pos two_pos e)
    · rw [compare_eq_iff_eq.2 rfl]
      exact rfl
    · rw [compare_gt_iff_gt.2 hgt]
      exact mul_lt_mul_of_pos_right (by exact_mod_cast hgt) (zpow_pos two_pos e)
  · rw [compare_gt_iff_gt.2 hgt]
    exact hn.value_lt hm hgt

private theorem compares_neg {order : Ordering} {p q : Rat} (h : order.Compares p q) :
    order.swap.Compares (-p) (-q) := by
  cases order with
  | lt => exact neg_lt_neg h
  | eq => exact congrArg Neg.neg h
  | gt => exact neg_lt_neg h

theorem magnitude_pos {significand : Nat} (hpos : 0 < significand) (exponent : Int) :
    (0 : Rat) < significand * 2 ^ exponent :=
  mul_pos (by exact_mod_cast hpos) (zpow_pos two_pos exponent)

theorem valueOf_positive (significand : Nat) (exponent : Int) (hpos : 0 < significand) :
    valueOf (.finite .positive significand exponent hpos) = significand * 2 ^ exponent := rfl

theorem valueOf_negative (significand : Nat) (exponent : Int) (hpos : 0 < significand) :
    valueOf (.finite .negative significand exponent hpos) = -(significand * 2 ^ exponent) := by
  simp [valueOf, Sign.apply]

theorem compares_value {u v : UnpackedFloat} (hu : Proper u) (hv : Proper v)
    (hufinite : u.isFinite = true) (hvfinite : v.isFinite = true) :
    ∃ order, u.compare v = some order ∧ order.Compares (valueOf u) (valueOf v) := by
  obtain ⟨s, rfl⟩ | ⟨s, m, e, hm, rfl⟩ := cases_of_isFinite hufinite <;>
    obtain ⟨s', rfl⟩ | ⟨s', n, f, hn, rfl⟩ := cases_of_isFinite hvfinite
  · exact ⟨.eq, rfl, rfl⟩
  · have hpos := magnitude_pos hn f
    cases s' with
    | negative => exact ⟨.gt, rfl, by rw [valueOf_negative]; exact neg_lt_zero.2 hpos⟩
    | positive => exact ⟨.lt, rfl, hpos⟩
  · have hpos := magnitude_pos hm e
    cases s with
    | negative => exact ⟨.lt, rfl, by rw [valueOf_negative]; exact neg_lt_zero.2 hpos⟩
    | positive => exact ⟨.gt, rfl, hpos⟩
  · have hcompares := Canonical.compares hu hv
    have hmpos := magnitude_pos hm e
    have hnpos := magnitude_pos hn f
    cases s <;> cases s' <;> simp only [valueOf_negative, valueOf_positive]
    · exact ⟨_, rfl, compares_neg hcompares⟩
    · exact ⟨.lt, rfl, by simp only [Ordering.Compares]; linarith⟩
    · exact ⟨.gt, rfl, by simp only [Ordering.Compares]; linarith⟩
    · exact ⟨_, rfl, hcompares⟩

theorem isFinite_of_le_of_lt {u v w : UnpackedFloat} (hu : u.isFinite = true)
    (hw : w.isFinite = true) (hle : u.le v = true) (hlt : v.lt w = true) : v.isFinite = true := by
  cases v with
  | notANumber =>
      rw [UnpackedFloat.lt, UnpackedFloat.compare] at hlt
      contradiction
  | infinity s =>
      cases s with
      | positive =>
          obtain ⟨s', rfl⟩ | ⟨s', n, f, hn, rfl⟩ := cases_of_isFinite hw <;> contradiction
      | negative =>
          obtain ⟨s', rfl⟩ | ⟨s', n, f, hn, rfl⟩ := cases_of_isFinite hu <;> cases s' <;> contradiction
  | zero s => rfl
  | finite s significand exponent hpos => rfl

end DropTable.Binary64
