import DropTable.Proofs.Binary64.Arithmetic
/-!
# Doubles as numbers

A finite double reads as a rational.  Operations on doubles are rounded operations on what they read
as, and where the exact result needs no rounding, they are the exact ones.
-/

namespace DropTable.Binary64

open Float.Model

/-! ## Range -/

/-- The largest finite double. -/
def largest : Rat :=
  (2 ^ 53 - 1) * 2 ^ (971 : Int)

private theorem representable_largest : Representable largest :=
  ⟨2 ^ 53 - 1, 971, by norm_num, by norm_num, by norm_num [largest]⟩

theorem largest_lt : largest < 2 ^ 53 * 2 ^ (971 : Int) :=
  mul_lt_mul_of_pos_right (by norm_num) (zpow_pos two_pos 971)

theorem abs_valueOf_finite (s : UnpackedFloat.Sign) {significand : Nat} (exponent : Int)
    (hpos : 0 < significand) :
    |valueOf (.finite s significand exponent hpos)| = significand * 2 ^ exponent := by
  have hmagnitude := (magnitude_pos hpos exponent).le
  cases s with
  | negative => rw [valueOf_negative, abs_neg, abs_of_nonneg hmagnitude]
  | positive => exact abs_of_nonneg hmagnitude

theorem Fits.abs_valueOf_le {u : UnpackedFloat} (h : Fits u) : |valueOf u| ≤ largest := by
  have hlargest : (0 : Rat) ≤ largest := mul_nonneg (by norm_num) (zpow_pos two_pos 971).le
  cases u with
  | finite s significand exponent hpos =>
      have hbits : (significand : Rat) ≤ 2 ^ 53 - 1 := by
        have hle : significand ≤ 2 ^ 53 - 1 := Nat.le_pred_of_lt h.1.lt
        have hcast : (significand : Rat) ≤ (2 ^ 53 - 1 : Nat) := by exact_mod_cast hle
        norm_num at hcast ⊢
        exact hcast
      rw [abs_valueOf_finite]
      exact mul_le_mul hbits (zpow_le_zpow_right₀ (by norm_num) h.2) (zpow_pos two_pos _).le
        (by norm_num)
  | _ => simpa [valueOf] using hlargest

theorem Fits.representable {u : UnpackedFloat} (h : Fits u) : Representable (valueOf u) := by
  cases u with
  | finite s significand exponent hpos =>
      have hbits : |(significand : Int)| ≤ 2 ^ 53 := by
        rw [abs_of_nonneg (Int.natCast_nonneg significand)]
        exact_mod_cast h.1.lt.le
      have hpositive : Representable (significand * 2 ^ exponent) :=
        ⟨significand, exponent, hbits, h.1.least, rfl⟩
      cases s with
      | negative =>
          rw [valueOf_negative]
          exact hpositive.neg
      | positive => exact hpositive
  | _ => exact ⟨0, 0, by norm_num, by norm_num, by simp [valueOf]⟩

theorem Canonical.exponent_le {significand : Nat} {exponent : Int}
    (h : Canonical significand exponent) (hle : significand * 2 ^ exponent ≤ largest) :
    exponent ≤ 971 := by
  by_contra hlarge
  have hfull : (2 : Rat) ^ 52 ≤ significand := by
    exact_mod_cast h.full.resolve_right (by omega)
  have hpower : (2 : Rat) ^ (971 : Int) * 2 ≤ 2 ^ exponent :=
    two_zpow_mul_two_le (not_le.1 hlarge)
  have hmul : (2 : Rat) ^ 52 * (2 ^ (971 : Int) * 2) ≤ significand * 2 ^ exponent :=
    mul_le_mul hfull hpower (by positivity) (by positivity)
  linarith [largest_lt]

theorem Rounded.settle_eq {u : UnpackedFloat} {q : Rat} (h : Rounded u q) (hq : |q| ≤ largest) :
    settle u = u := by
  have hlow := h.le_of_le _ representable_largest.neg (neg_le_of_abs_le hq)
  have hhigh := h.ge_of_ge _ representable_largest (le_of_abs_le hq)
  cases u with
  | finite s significand exponent hpos =>
      have hle : significand * 2 ^ exponent ≤ largest := by
        rw [← abs_valueOf_finite s exponent hpos]
        exact abs_le.2 ⟨hlow, hhigh⟩
      exact if_pos (Canonical.exponent_le h.proper hle)
  | _ => rfl

/-! ## Finite doubles -/

/-- The number that a double stands for. -/
def value (x : Float) : Rat :=
  valueOf x.toModel.unpack

/-- A number that some finite double stands for. -/
def IsDouble (q : Rat) : Prop :=
  Representable q ∧ |q| ≤ largest

/-- A finite double that stands for a number. -/
structure Reads (x : Float) (q : Rat) : Prop where
  isFinite : x.isFinite = true
  value_eq : value x = q

/-- A finite double from which no number that needs no rounding separates an exact value. -/
structure Rounds (x : Float) (q : Rat) : Prop where
  isFinite : x.isFinite = true
  le_of_le : ∀ p, Representable p → p ≤ q → p ≤ value x
  ge_of_ge : ∀ p, Representable p → q ≤ p → value x ≤ p

theorem fits (x : Float) : Fits x.toModel.unpack :=
  fits_unpack x.toModel.toBits.toBitVec

theorem reads_value {x : Float} (h : x.isFinite = true) : Reads x (value x) := ⟨h, rfl⟩

theorem reads_zero : Reads 0 0 := ⟨by decide +kernel, by decide +kernel⟩

theorem reads_one : Reads 1 1 := ⟨by decide +kernel, by decide +kernel⟩

theorem Reads.isDouble {x : Float} {q : Rat} (h : Reads x q) : IsDouble q :=
  h.value_eq ▸ ⟨(fits x).representable, (fits x).abs_valueOf_le⟩

theorem Rounds.reads {x : Float} {q : Rat} (h : Rounds x q) (hq : Representable q) : Reads x q :=
  ⟨h.isFinite, le_antisymm (h.ge_of_ge q hq le_rfl) (h.le_of_le q hq le_rfl)⟩

theorem Rounded.rounds {u : UnpackedFloat} {q : Rat} (h : Rounded u q) (hq : |q| ≤ largest) :
    Rounds (.ofModel (.pack u)) q := by
  have hunpack : (Float.ofModel (.pack u)).toModel.unpack = u :=
    (unpack_pack h.proper).trans (h.settle_eq hq)
  refine ⟨?_, ?_, ?_⟩
  · rw [← hunpack] at h
    exact h.isFinite
  · rw [value, hunpack]
    exact h.le_of_le
  · rw [value, hunpack]
    exact h.ge_of_ge

section Operations

variable {x y : Float} {p q : Rat}

theorem Reads.rounds_add (hx : Reads x p) (hy : Reads y q) (h : |p + q| ≤ largest) :
    Rounds (x + y) (p + q) := by
  obtain ⟨hxfinite, rfl⟩ := hx
  obtain ⟨hyfinite, rfl⟩ := hy
  exact (rounded_add (fits x).proper (fits y).proper hxfinite hyfinite).rounds h

theorem Reads.rounds_sub (hx : Reads x p) (hy : Reads y q) (h : |p - q| ≤ largest) :
    Rounds (x - y) (p - q) := by
  obtain ⟨hxfinite, rfl⟩ := hx
  obtain ⟨hyfinite, rfl⟩ := hy
  exact (rounded_sub (fits x).proper (fits y).proper hxfinite hyfinite).rounds h

theorem Reads.rounds_mul (hx : Reads x p) (hy : Reads y q) (h : |p * q| ≤ largest) :
    Rounds (x * y) (p * q) := by
  obtain ⟨hxfinite, rfl⟩ := hx
  obtain ⟨hyfinite, rfl⟩ := hy
  exact (rounded_mul (fits x).proper (fits y).proper hxfinite hyfinite).rounds h

theorem Reads.add (hx : Reads x p) (hy : Reads y q) (h : IsDouble (p + q)) :
    Reads (x + y) (p + q) :=
  (hx.rounds_add hy h.2).reads h.1

theorem Reads.sub (hx : Reads x p) (hy : Reads y q) (h : IsDouble (p - q)) :
    Reads (x - y) (p - q) :=
  (hx.rounds_sub hy h.2).reads h.1

theorem Reads.exists_unpack (hx : Reads x p) (hp : 0 < p) :
    ∃ significand exponent, ∃ hpos : 0 < significand,
      x.toModel.unpack = .finite .positive significand exponent hpos ∧
        Canonical significand exponent ∧ p = significand * 2 ^ exponent := by
  obtain ⟨hfinite, rfl⟩ := hx
  have hfits := fits x
  rw [value] at hp ⊢
  obtain ⟨s, hunpack⟩ | ⟨s, significand, exponent, hpos, hunpack⟩ := cases_of_isFinite hfinite
  · rw [hunpack, valueOf_zero] at hp
    exact absurd hp (lt_irrefl 0)
  · rw [hunpack] at hp hfits ⊢
    cases s with
    | positive => exact ⟨significand, exponent, hpos, rfl, hfits.1, rfl⟩
    | negative =>
        rw [valueOf_negative] at hp
        linarith [magnitude_pos hpos exponent]

theorem Reads.roundsTo_mul (hx : Reads x p) (hy : Reads y q) (hp : 0 < p) (hq : 0 < q) :
    RoundsTo .positive (p * q)
      (UnpackedFloat.mul Format.binary64 x.toModel.unpack y.toModel.unpack) := by
  obtain ⟨m, e, hm, hxunpack, hmcanonical, rfl⟩ := hx.exists_unpack hp
  obtain ⟨n, f, hn, hyunpack, hncanonical, rfl⟩ := hy.exists_unpack hq
  rw [hxunpack, hyunpack]
  exact Binary64.roundsTo_mul .positive .positive hm hn
    (hmcanonical.add_le_lastExponent hncanonical hm hn)

theorem Reads.exists_compare (hx : Reads x p) (hy : Reads y q) :
    ∃ order, x.toModel.unpack.compare y.toModel.unpack = some order ∧ order.Compares p q := by
  obtain ⟨hxfinite, rfl⟩ := hx
  obtain ⟨hyfinite, rfl⟩ := hy
  exact compares_value (fits x).proper (fits y).proper hxfinite hyfinite

theorem Reads.lt_iff (hx : Reads x p) (hy : Reads y q) : x < y ↔ p < q := by
  obtain ⟨order, horder, hcompares⟩ := hx.exists_compare hy
  have hmodel : x < y ↔ x.toModel.unpack.lt y.toModel.unpack = true := decide_eq_true_iff
  rw [hmodel, UnpackedFloat.lt, horder, ← hcompares.eq_lt]
  cases order <;> decide

theorem Reads.le_iff (hx : Reads x p) (hy : Reads y q) : x ≤ y ↔ p ≤ q := by
  obtain ⟨order, horder, hcompares⟩ := hx.exists_compare hy
  have hmodel : x ≤ y ↔ x.toModel.unpack.le y.toModel.unpack = true := decide_eq_true_iff
  rw [hmodel, UnpackedFloat.le, horder, ← hcompares.ne_gt]
  cases order <;> decide

theorem Reads.isNaN_eq (hx : Reads x p) : x.isNaN = false := by
  have hfinite : x.toModel.unpack.isFinite = true := hx.isFinite
  change x.toModel.unpack.isNaN = false
  obtain ⟨s, hzero⟩ | ⟨s, significand, exponent, hpos, hunpack⟩ := cases_of_isFinite hfinite
  · rw [hzero]
    rfl
  · rw [hunpack]
    rfl

theorem exists_reads {z : Float} (hx : Reads x p) (hy : Reads y q) (hle : x ≤ z) (hlt : z < y) :
    ∃ r, Reads z r ∧ p ≤ r ∧ r < q := by
  have hfinite : z.isFinite = true :=
    isFinite_of_le_of_lt hx.isFinite hy.isFinite (of_decide_eq_true hle) (of_decide_eq_true hlt)
  have hz := reads_value hfinite
  exact ⟨value z, hz, (hx.le_iff hz).1 hle, (hz.lt_iff hy).1 hlt⟩

end Operations

end DropTable.Binary64
