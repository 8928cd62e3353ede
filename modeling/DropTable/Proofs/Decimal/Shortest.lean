import Mathlib.Tactic.FieldSimp
import Mathlib.Tactic.Linarith
import Mathlib.Tactic.Ring
import DropTable.Decimal.Shortest
import DropTable.Proofs.Decimal.Layout
/-!
# Shortest decimals belong to their numbers

A grid point that is accepted lies in the interval of the number, and so does the number written
out.  Whatever is chosen, it is nearer to the number than to its neighbours.
-/

namespace DropTable.Decimal

namespace Binary

/-- Half the distance to the neighbour below, in units of the number. -/
def gap (b : Binary) : Rat :=
  if b.narrow then 1 / 4 else 1 / 2

/-- Where the interval of a number begins. -/
def low (b : Binary) : Rat :=
  (b.significand - b.gap) * 2 ^ b.exponent

/-- Where the interval of a number ends. -/
def high (b : Binary) : Rat :=
  (b.significand + 1 / 2) * 2 ^ b.exponent

private theorem gap_pos (b : Binary) : 0 < b.gap := by
  unfold gap
  split <;> norm_num

theorem gap_le (b : Binary) : b.gap ≤ 1 / 2 := by
  unfold gap
  split <;> norm_num

/-- A number lies in the interval of a binary number, and at an end only if the ends belong to
it. -/
structure Owns (b : Binary) (q : Rat) : Prop where
  low_le : b.low ≤ q
  le_high : q ≤ b.high
  inner : b.closed = false → b.low < q ∧ q < b.high

end Binary

/-! ## Intervals -/

/-- The ends of an interval stand for two numbers. -/
structure Interval.Measures (i : Interval) (low high : Rat) : Prop where
  denominator_pos : 0 < i.denominator
  low_eq : (i.low : Rat) = low * i.denominator
  high_eq : (i.high : Rat) = high * i.denominator

private theorem Binary.cast_low {b : Binary} (hpos : 0 < b.significand) :
    ((4 * b.significand - if b.narrow then 1 else 2 : Nat) : Rat) = 4 * (b.significand - b.gap) := by
  have hle : (if b.narrow then 1 else 2) ≤ 4 * b.significand := by
    split <;> omega
  rw [Nat.cast_sub hle, gap]
  split <;> push_cast <;> ring

private theorem Binary.measures_interval {b : Binary} (hpos : 0 < b.significand) :
    b.interval.Measures b.low b.high := by
  have hlow := cast_low hpos
  unfold interval
  dsimp only
  generalize (4 * b.significand - if b.narrow then 1 else 2) = quarters at hlow
  split
  case h_1 n hn =>
    have hexponent : (2 : Rat) ^ b.exponent = 2 ^ n * 4 := by
      have hsum : b.exponent = (n : Int) + (2 : Nat) := by
        rw [Int.ofNat_eq_natCast] at hn
        omega
      rw [hsum, zpow_add₀ two_ne_zero, zpow_natCast, zpow_natCast]
      norm_num
    refine ⟨one_pos, ?_, ?_⟩
    · rw [Nat.shiftLeft_eq, Nat.cast_mul, hlow, low, hexponent]
      push_cast
      ring
    · dsimp only
      rw [Nat.shiftLeft_eq, high, hexponent]
      push_cast
      ring
  case h_2 n hn =>
    have hexponent : (2 : Rat) ^ b.exponent * 2 ^ (n + 1) = 4 := by
      have hsum : b.exponent + (n + 1 : Nat) = (2 : Nat) := by
        rw [Int.negSucc_eq] at hn
        omega
      rw [← zpow_natCast, ← zpow_add₀ two_ne_zero, hsum, zpow_natCast]
      norm_num
    refine ⟨Nat.shiftLeft_eq 1 _ ▸ by positivity, ?_, ?_⟩
    · rw [Nat.shiftLeft_eq, one_mul, low, mul_assoc, Nat.cast_pow, Nat.cast_ofNat, hexponent, hlow,
        mul_comm]
    · rw [Nat.shiftLeft_eq, one_mul, high, mul_assoc, Nat.cast_pow, Nat.cast_ofNat, hexponent]
      push_cast
      ring

theorem Interval.Measures.onGrid {i : Interval} {low high : Rat} (h : i.Measures low high)
    (exponent : Int) :
    (i.onGrid exponent).Measures (low / 10 ^ exponent) (high / 10 ^ exponent) := by
  obtain ⟨hdenominator, hlow, hhigh⟩ := h
  cases exponent with
  | ofNat n =>
      have hpower : (10 : Rat) ^ (n : Int) ≠ 0 := (zpow_pos (by norm_num) n).ne'
      refine ⟨Nat.mul_pos hdenominator (Nat.pow_pos (by decide)), ?_, ?_⟩
      · simp only [Interval.onGrid, hlow, Int.ofNat_eq_natCast, zpow_natCast, Nat.pow_eq] at hpower ⊢
        push_cast
        field_simp
      · simp only [Interval.onGrid, hhigh, Int.ofNat_eq_natCast, zpow_natCast, Nat.pow_eq] at hpower ⊢
        push_cast
        field_simp
  | negSucc n =>
      refine ⟨hdenominator, ?_, ?_⟩
      · simp only [Interval.onGrid, Nat.cast_mul, hlow, zpow_negSucc, div_inv_eq_mul, Nat.pow_eq]
        push_cast
        ring
      · simp only [Interval.onGrid, Nat.cast_mul, hhigh, zpow_negSucc, div_inv_eq_mul, Nat.pow_eq]
        push_cast
        ring

namespace Binary

variable {b : Binary}

/-- The test of a grid point. -/
def hits (b : Binary) (i : Interval) (point : Nat) : Bool :=
  if b.closed then i.low ≤ point * i.denominator && point * i.denominator ≤ i.high
  else i.low < point * i.denominator && point * i.denominator < i.high

private theorem onGrid?_eq (b : Binary) (exponent : Int) :
    b.onGrid? exponent =
      let i := b.interval.onGrid exponent
      let below := i.value / i.denominator
      if b.hits i (below + 1) &&
          (!b.hits i below || i.denominator ≤ 2 * (i.value - below * i.denominator)) then
        some ⟨below + 1, exponent⟩
      else if b.hits i below then some ⟨below, exponent⟩
      else none := rfl

private theorem owns_of_hits {i : Interval} {exponent : Int}
    (h : i.Measures (b.low / 10 ^ exponent) (b.high / 10 ^ exponent)) {point : Nat}
    (hhits : b.hits i point = true) : b.Owns (value ⟨point, exponent⟩) := by
  have hpower : (0 : Rat) < 10 ^ exponent := zpow_pos (by norm_num) exponent
  have hdenominator : (0 : Rat) < i.denominator := by exact_mod_cast h.denominator_pos
  have hlow_lt : i.low < point * i.denominator → b.low < value ⟨point, exponent⟩ := by
    intro hlt
    rw [value, ← div_lt_iff₀ hpower, ← mul_lt_mul_iff_left₀ hdenominator, ← h.low_eq]
    exact_mod_cast hlt
  have hlt_high : point * i.denominator < i.high → value ⟨point, exponent⟩ < b.high := by
    intro hlt
    rw [value, ← lt_div_iff₀ hpower, ← mul_lt_mul_iff_left₀ hdenominator, ← h.high_eq]
    exact_mod_cast hlt
  unfold hits at hhits
  split at hhits
  case isTrue hclosed =>
    obtain ⟨hlow, hhigh⟩ := Bool.and_eq_true_iff.1 hhits
    refine ⟨?_, ?_, fun hopen => absurd hclosed (hopen ▸ Bool.false_ne_true)⟩
    · rw [value, ← div_le_iff₀ hpower, ← mul_le_mul_iff_left₀ hdenominator, ← h.low_eq]
      exact_mod_cast of_decide_eq_true hlow
    · rw [value, ← le_div_iff₀ hpower, ← mul_le_mul_iff_left₀ hdenominator, ← h.high_eq]
      exact_mod_cast of_decide_eq_true hhigh
  case isFalse =>
    obtain ⟨hlow, hhigh⟩ := Bool.and_eq_true_iff.1 hhits
    have hinner := And.intro (hlow_lt (of_decide_eq_true hlow)) (hlt_high (of_decide_eq_true hhigh))
    exact ⟨hinner.1.le, hinner.2.le, fun _ => hinner⟩

private theorem owns_of_onGrid? (hpos : 0 < b.significand) {exponent : Int} {d : Decimal}
    (h : b.onGrid? exponent = some d) : b.Owns d.value := by
  have hmeasures := (measures_interval hpos).onGrid exponent
  rw [onGrid?_eq] at h
  dsimp only at h
  split at h
  case isTrue hupper =>
    cases h
    exact owns_of_hits hmeasures (Bool.and_eq_true_iff.1 hupper).1
  case isFalse =>
    split at h
    case isTrue hlower =>
      cases h
      exact owns_of_hits hmeasures hlower
    case isFalse => contradiction

private theorem value_exact (b : Binary) : b.exact.value = b.significand * 2 ^ b.exponent := by
  unfold exact
  split
  case h_1 n hn =>
    rw [hn, value, zpow_zero, mul_one, Nat.shiftLeft_eq, Int.ofNat_eq_natCast, zpow_natCast]
    push_cast
    rfl
  case h_2 n hn =>
    have hten : (10 : Rat) ^ (n + 1) = 5 ^ (n + 1) * 2 ^ (n + 1) := by
      rw [← mul_pow]
      norm_num
    rw [hn, value, zpow_negSucc, zpow_negSucc, hten, Nat.pow_eq, mul_inv]
    push_cast
    field_simp

private theorem owns_exact (b : Binary) : b.Owns b.exact.value := by
  have hgap := b.gap_pos
  have hpower : (0 : Rat) < 2 ^ b.exponent := zpow_pos two_pos _
  have hlow : b.low < b.exact.value := by
    rw [value_exact, low]
    exact mul_lt_mul_of_pos_right (by linarith) hpower
  have hhigh : b.exact.value < b.high := by
    rw [value_exact, high]
    exact mul_lt_mul_of_pos_right (by linarith) hpower
  exact ⟨hlow.le, hhigh.le, fun _ => ⟨hlow, hhigh⟩⟩

theorem owns_shortest (hpos : 0 < b.significand) : b.Owns b.shortest.value := by
  unfold shortest
  cases hfind : (List.range 24).findSome? fun (i : Nat) => b.onGrid? (b.coarsestGrid - i) with
  | none => exact owns_exact b
  | some d =>
      obtain ⟨i, -, hgrid⟩ := List.exists_of_findSome?_eq_some hfind
      exact owns_of_onGrid? hpos hgrid

end Binary

end DropTable.Decimal
