import DropTable.Proofs.Binary64.Values
/-!
# Doubles in order

Every double but a NaN has a place among the rational numbers: a finite one at the number that it
reads as, and the infinities right behind all finite ones.  Comparisons go by places.  Whatever
rounds or overflows, a sum of doubles that are not negative is no less than either of them, and no
part of a double is greater than the whole.
-/

namespace DropTable.Binary64

open Float.Model

/-! ## Places -/

/-- The place of an infinity: the first power of two that is out of range. -/
def beyond : Rat :=
  2 ^ (1024 : Int)

def placeOf : UnpackedFloat → Rat
  | .infinity .negative => -beyond
  | .infinity .positive => beyond
  | u => valueOf u

/-- Where a double stands in order.  A NaN stands nowhere in particular. -/
def place (x : Float) : Rat :=
  placeOf x.toModel.unpack

private theorem beyond_pos : 0 < beyond :=
  zpow_pos two_pos 1024

private theorem largest_lt_beyond : largest < beyond := by
  have hpower : (2 : Rat) ^ 53 * 2 ^ (971 : Int) = beyond := by
    rw [beyond, ← zpow_natCast, ← zpow_add₀ (by norm_num)]
    rfl
  rw [← hpower]
  exact largest_lt

private theorem placeOf_of_isFinite {u : UnpackedFloat} (h : u.isFinite = true) :
    placeOf u = valueOf u := by
  obtain ⟨s, rfl⟩ | ⟨s, significand, exponent, hpos, rfl⟩ := cases_of_isFinite h <;> rfl

private theorem Fits.abs_placeOf_le {u : UnpackedFloat} (h : Fits u) : |placeOf u| ≤ beyond := by
  have hvalue := h.abs_valueOf_le.trans largest_lt_beyond.le
  cases u with
  | infinity s => cases s <;> simp [placeOf, abs_of_pos beyond_pos]
  | _ => exact hvalue

private theorem isFinite_or_infinity {u : UnpackedFloat} (h : u.isNaN = false) :
    u.isFinite = true ∨ ∃ s, u = .infinity s := by
  cases u with
  | notANumber => contradiction
  | infinity s => exact .inr ⟨s, rfl⟩
  | zero s => exact .inl rfl
  | finite s significand exponent hpos => exact .inl rfl

private theorem Fits.between {u : UnpackedFloat} (h : Fits u) (hfinite : u.isFinite = true) :
    -beyond < placeOf u ∧ placeOf u < beyond := by
  rw [placeOf_of_isFinite hfinite, ← abs_lt]
  exact h.abs_valueOf_le.trans_lt largest_lt_beyond

private theorem compare_infinity {u : UnpackedFloat} (h : u.isFinite = true)
    (s : UnpackedFloat.Sign) :
    u.compare (.infinity s) = some (match s with | .negative => .gt | .positive => .lt) ∧
      UnpackedFloat.compare (.infinity s) u =
        some (match s with | .negative => .lt | .positive => .gt) := by
  obtain ⟨s', rfl⟩ | ⟨s', significand, exponent, hpos, rfl⟩ := cases_of_isFinite h <;>
    cases s <;> cases s' <;> exact ⟨rfl, rfl⟩

private theorem compares_placeOf {u v : UnpackedFloat} (hu : Fits u) (hv : Fits v)
    (hunan : u.isNaN = false) (hvnan : v.isNaN = false) :
    ∃ order, u.compare v = some order ∧ order.Compares (placeOf u) (placeOf v) := by
  rcases isFinite_or_infinity hunan with hufinite | ⟨s, rfl⟩
  · rcases isFinite_or_infinity hvnan with hvfinite | ⟨s', rfl⟩
    · rw [placeOf_of_isFinite hufinite, placeOf_of_isFinite hvfinite]
      exact compares_value hu.proper hv.proper hufinite hvfinite
    · obtain ⟨hlow, hhigh⟩ := hu.between hufinite
      refine ⟨_, (compare_infinity hufinite s').1, ?_⟩
      cases s' with
      | negative => exact hlow
      | positive => exact hhigh
  · rcases isFinite_or_infinity hvnan with hvfinite | ⟨s', rfl⟩
    · obtain ⟨hlow, hhigh⟩ := hv.between hvfinite
      refine ⟨_, (compare_infinity hvfinite s).2, ?_⟩
      cases s with
      | negative => exact hlow
      | positive => exact hhigh
    · have hbeyond : -beyond < beyond := neg_lt_self beyond_pos
      cases s with
      | negative =>
          cases s' with
          | negative => exact ⟨.eq, rfl, rfl⟩
          | positive => exact ⟨.lt, rfl, hbeyond⟩
      | positive =>
          cases s' with
          | negative => exact ⟨.gt, rfl, hbeyond⟩
          | positive => exact ⟨.eq, rfl, rfl⟩

section Order

variable {x y z : Float}

theorem exists_compare (hx : x.isNaN = false) (hy : y.isNaN = false) :
    ∃ order, x.toModel.unpack.compare y.toModel.unpack = some order ∧
      order.Compares (place x) (place y) :=
  compares_placeOf (fits x) (fits y) hx hy

theorem lt_iff_place (hx : x.isNaN = false) (hy : y.isNaN = false) :
    x < y ↔ place x < place y := by
  obtain ⟨order, horder, hcompares⟩ := exists_compare hx hy
  have hmodel : x < y ↔ x.toModel.unpack.lt y.toModel.unpack = true := decide_eq_true_iff
  rw [hmodel, UnpackedFloat.lt, horder, ← hcompares.eq_lt]
  cases order <;> decide

theorem le_iff_place (hx : x.isNaN = false) (hy : y.isNaN = false) :
    x ≤ y ↔ place x ≤ place y := by
  obtain ⟨order, horder, hcompares⟩ := exists_compare hx hy
  have hmodel : x ≤ y ↔ x.toModel.unpack.le y.toModel.unpack = true := decide_eq_true_iff
  rw [hmodel, UnpackedFloat.le, horder, ← hcompares.ne_gt]
  cases order <;> decide

private theorem eq_notANumber_of_isNaN {u : UnpackedFloat} (h : u.isNaN = true) :
    u = .notANumber := by
  cases u <;> trivial

private theorem compare_of_isNaN {u v : UnpackedFloat} (h : u.isNaN = true ∨ v.isNaN = true) :
    u.compare v = none := by
  rcases h with h | h
  · rw [eq_notANumber_of_isNaN h]
    rfl
  · rw [eq_notANumber_of_isNaN h]
    cases u with
    | infinity s => cases s <;> rfl
    | finite s significand exponent hpos => cases s <;> rfl
    | _ => rfl

theorem isNaN_of_le (h : x ≤ y) : x.isNaN = false ∧ y.isNaN = false := by
  have hmodel : x.toModel.unpack.le y.toModel.unpack = true := of_decide_eq_true h
  by_contra hnan
  rw [not_and_or, Bool.not_eq_false, Bool.not_eq_false] at hnan
  rw [UnpackedFloat.le, compare_of_isNaN hnan] at hmodel
  contradiction

theorem isNaN_of_lt (h : x < y) : x.isNaN = false ∧ y.isNaN = false := by
  have hmodel : x.toModel.unpack.lt y.toModel.unpack = true := of_decide_eq_true h
  by_contra hnan
  rw [not_and_or, Bool.not_eq_false, Bool.not_eq_false] at hnan
  rw [UnpackedFloat.lt, compare_of_isNaN hnan] at hmodel
  contradiction

theorem not_lt_of_le (h : x ≤ y) : ¬ y < x := by
  obtain ⟨hx, hy⟩ := isNaN_of_le h
  rw [lt_iff_place hy hx, not_lt]
  exact (le_iff_place hx hy).1 h

theorem le_of_not_lt (hx : x.isNaN = false) (hy : y.isNaN = false) (h : ¬ y < x) : x ≤ y := by
  rw [le_iff_place hx hy]
  exact not_lt.1 ((lt_iff_place hy hx).not.1 h)

theorem le_of_lt (h : x < y) : x ≤ y := by
  obtain ⟨hx, hy⟩ := isNaN_of_lt h
  exact (le_iff_place hx hy).2 ((lt_iff_place hx hy).1 h).le

theorem le_refl (h : x.isNaN = false) : x ≤ x :=
  (le_iff_place h h).2 le_rfl

theorem le_trans (hxy : x ≤ y) (hyz : y ≤ z) : x ≤ z := by
  obtain ⟨hx, hy⟩ := isNaN_of_le hxy
  have hz := (isNaN_of_le hyz).2
  rw [le_iff_place hx hz]
  exact ((le_iff_place hx hy).1 hxy).trans ((le_iff_place hy hz).1 hyz)

theorem lt_of_le_of_lt (hxy : x ≤ y) (hyz : y < z) : x < z := by
  obtain ⟨hx, hy⟩ := isNaN_of_le hxy
  have hz := (isNaN_of_lt hyz).2
  rw [lt_iff_place hx hz]
  exact ((le_iff_place hx hy).1 hxy).trans_lt ((lt_iff_place hy hz).1 hyz)

theorem lt_of_lt_of_le (hxy : x < y) (hyz : y ≤ z) : x < z := by
  obtain ⟨hx, hy⟩ := isNaN_of_lt hxy
  have hz := (isNaN_of_le hyz).2
  rw [lt_iff_place hx hz]
  exact ((lt_iff_place hx hy).1 hxy).trans_le ((le_iff_place hy hz).1 hyz)

end Order

/-! ## Rounding and overflow -/

/-- A double that is no NaN, and that no double within range separates from an exact value. -/
structure Settles (x : Float) (q : Rat) : Prop where
  isNaN : x.isNaN = false
  le_place : ∀ p, IsDouble p → p ≤ q → p ≤ place x
  place_le : ∀ p, IsDouble p → q ≤ p → place x ≤ p

theorem Canonical.largest_lt {significand : Nat} {exponent : Int}
    (h : Canonical significand exponent) (hlarge : ¬ exponent ≤ 971) :
    largest < significand * 2 ^ exponent := by
  by_contra hle
  exact hlarge (h.exponent_le (not_lt.1 hle))

private theorem Proper.settle_cases {u : UnpackedFloat} (h : Proper u) :
    settle u = u ∨ settle u = .infinity .positive ∧ largest < valueOf u ∨
      settle u = .infinity .negative ∧ valueOf u < -largest := by
  cases u with
  | finite s significand exponent hpos =>
      by_cases hrange : exponent ≤ 971
      · exact .inl (if_pos hrange)
      · right
        have hlarge := Canonical.largest_lt h hrange
        cases s with
        | positive => exact .inl ⟨if_neg hrange, hlarge⟩
        | negative =>
            rw [valueOf_negative]
            exact .inr ⟨if_neg hrange, neg_lt_neg hlarge⟩
  | _ => exact .inl rfl

private theorem Rounded.settles {u : UnpackedFloat} {q : Rat} (h : Rounded u q) :
    Settles (.ofModel (.pack u)) q := by
  have hunpack : (Float.ofModel (.pack u)).toModel.unpack = settle u := unpack_pack h.proper
  have hplace : place (.ofModel (.pack u)) = placeOf (settle u) := congrArg placeOf hunpack
  have hnan : (Float.ofModel (.pack u)).isNaN = (settle u).isNaN :=
    congrArg UnpackedFloat.isNaN hunpack
  -- A result out of range becomes infinite, and then no double in range lies beyond the number.
  obtain hsettle | ⟨hsettle, hlarge⟩ | ⟨hsettle, hlarge⟩ := h.proper.settle_cases
  · rw [hsettle] at hplace hnan
    rw [placeOf_of_isFinite h.isFinite] at hplace
    refine ⟨?_, ?_, ?_⟩
    · rw [hnan]
      obtain ⟨s, rfl⟩ | ⟨s, significand, exponent, hpos, rfl⟩ := cases_of_isFinite h.isFinite <;> rfl
    · intro p hp hle
      rw [hplace]
      exact h.le_of_le p hp.1 hle
    · intro p hp hle
      rw [hplace]
      exact h.ge_of_ge p hp.1 hle
  · rw [hsettle] at hplace hnan
    refine ⟨hnan, ?_, ?_⟩
    · intro p hp _
      rw [hplace]
      exact (le_of_abs_le hp.2).trans largest_lt_beyond.le
    · intro p hp hle
      have hsmall := h.ge_of_ge p hp.1 hle
      linarith [le_of_abs_le hp.2]
  · rw [hsettle] at hplace hnan
    refine ⟨hnan, ?_, ?_⟩
    · intro p hp hle
      have hsmall := h.le_of_le p hp.1 hle
      linarith [neg_le_of_abs_le hp.2]
    · intro p hp _
      rw [hplace]
      exact (neg_le_neg largest_lt_beyond.le).trans (neg_le_of_abs_le hp.2)

section Operations

variable {x y : Float} {p q : Rat}

private theorem Reads.place_eq (hx : Reads x p) : place x = p := by
  rw [place, placeOf_of_isFinite hx.isFinite]
  exact hx.value_eq

private theorem Reads.settles_add (hx : Reads x p) (hy : Reads y q) : Settles (x + y) (p + q) := by
  obtain ⟨hxfinite, rfl⟩ := hx
  obtain ⟨hyfinite, rfl⟩ := hy
  exact (rounded_add (fits x).proper (fits y).proper hxfinite hyfinite).settles

private theorem Reads.settles_mul (hx : Reads x p) (hy : Reads y q) : Settles (x * y) (p * q) := by
  obtain ⟨hxfinite, rfl⟩ := hx
  obtain ⟨hyfinite, rfl⟩ := hy
  exact (rounded_mul (fits x).proper (fits y).proper hxfinite hyfinite).settles

private theorem reads_or_infinity (hx : 0 ≤ x) :
    (∃ p, Reads x p ∧ 0 ≤ p) ∨ x.toModel.unpack = .infinity .positive := by
  have hnan := (isNaN_of_le hx).2
  rw [le_iff_place reads_zero.isNaN_eq hnan, reads_zero.place_eq] at hx
  rcases isFinite_or_infinity hnan with hfinite | ⟨s, hs⟩
  · have hreads := reads_value hfinite
    exact .inl ⟨_, hreads, hreads.place_eq ▸ hx⟩
  · cases s with
    | positive => exact .inr hs
    | negative =>
        rw [place, hs, placeOf] at hx
        exact absurd (neg_lt_zero.2 beyond_pos) (not_lt.2 hx)

theorem le_infinity (hx : x.isNaN = false) (hy : y.toModel.unpack = .infinity .positive) :
    x ≤ y := by
  have hnan : y.isNaN = false := congrArg UnpackedFloat.isNaN hy
  have hplace : place y = beyond := congrArg placeOf hy
  rw [le_iff_place hx hnan, hplace]
  exact le_of_abs_le (fits x).abs_placeOf_le

private theorem unpack_add_infinity (hx : 0 ≤ x) (hy : 0 ≤ y)
    (h : x.toModel.unpack = .infinity .positive ∨ y.toModel.unpack = .infinity .positive) :
    (x + y).toModel.unpack = .infinity .positive := by
  have hsum : UnpackedFloat.add Format.binary64 x.toModel.unpack y.toModel.unpack =
      .infinity .positive := by
    rcases reads_or_infinity hx with ⟨p, hp, -⟩ | hxinf
    · obtain hpunpack | ⟨s, significand, exponent, hpos, hpunpack⟩ := cases_of_isFinite hp.isFinite
      · obtain ⟨s, hpunpack⟩ := hpunpack
        rw [hpunpack] at h ⊢
        rw [h.resolve_left UnpackedFloat.noConfusion]
        rfl
      · rw [hpunpack] at h ⊢
        rw [h.resolve_left UnpackedFloat.noConfusion]
        rfl
    · rw [hxinf]
      rcases reads_or_infinity hy with ⟨q, hq, -⟩ | hyinf
      · obtain ⟨s, hqunpack⟩ | ⟨s, significand, exponent, hpos, hqunpack⟩ :=
          cases_of_isFinite hq.isFinite
        · rw [hqunpack]
          rfl
        · rw [hqunpack]
          rfl
      · rw [hyinf]
        rfl
  have hmodel : (x + y).toModel.unpack = UnpackedFloat.unpack Format.binary64
      (UnpackedFloat.pack Format.binary64
        (UnpackedFloat.add Format.binary64 x.toModel.unpack y.toModel.unpack)) := rfl
  rw [hmodel, hsum]
  rfl

theorem le_add (hx : 0 ≤ x) (hy : 0 ≤ y) : x ≤ x + y ∧ y ≤ x + y := by
  have hxnan := (isNaN_of_le hx).2
  have hynan := (isNaN_of_le hy).2
  by_cases hinf : x.toModel.unpack = .infinity .positive ∨ y.toModel.unpack = .infinity .positive
  · have hsum := unpack_add_infinity hx hy hinf
    exact ⟨le_infinity hxnan hsum, le_infinity hynan hsum⟩
  · rw [not_or] at hinf
    obtain ⟨p, hp, hppos⟩ := (reads_or_infinity hx).resolve_right hinf.1
    obtain ⟨q, hq, hqpos⟩ := (reads_or_infinity hy).resolve_right hinf.2
    have hsum := hp.settles_add hq
    rw [le_iff_place hxnan hsum.isNaN, le_iff_place hynan hsum.isNaN, hp.place_eq, hq.place_eq]
    exact ⟨hsum.le_place p hp.isDouble (le_add_of_nonneg_right hqpos),
      hsum.le_place q hq.isDouble (le_add_of_nonneg_left hppos)⟩

theorem add_nonneg (hx : 0 ≤ x) (hy : 0 ≤ y) : 0 ≤ x + y :=
  le_trans hx (le_add hx hy).1

theorem add_zero_le (hx : 0 ≤ x) : x + 0 ≤ x := by
  have hxnan := (isNaN_of_le hx).2
  rcases reads_or_infinity hx with ⟨p, hp, -⟩ | hinf
  · have hsum := hp.settles_add reads_zero
    rw [le_iff_place hsum.isNaN hxnan, hp.place_eq]
    exact hsum.place_le p hp.isDouble (add_zero p).le
  · have hsum := unpack_add_infinity hx (le_refl reads_zero.isNaN_eq) (.inl hinf)
    exact le_infinity (congrArg UnpackedFloat.isNaN hsum) hinf

theorem exists_reads_unit (hx : 0 ≤ x) (hone : x ≤ 1) : ∃ p, Reads x p ∧ 0 ≤ p ∧ p ≤ 1 := by
  rcases reads_or_infinity hx with ⟨p, hp, hppos⟩ | hinf
  · exact ⟨p, hp, hppos, (hp.le_iff reads_one).1 hone⟩
  · have hplace : place x = beyond := congrArg placeOf hinf
    rw [le_iff_place (isNaN_of_le hx).2 reads_one.isNaN_eq, hplace, reads_one.place_eq] at hone
    have hbeyond : (1 : Rat) < beyond :=
      (le_of_abs_le reads_one.isDouble.2).trans_lt largest_lt_beyond
    exact absurd hbeyond (not_lt.2 hone)

/-- No part of a double is greater than the whole. The product may be a NaN. -/
theorem not_lt_mul (hx : 0 ≤ x) (hone : x ≤ 1) (hy : 0 < y) : ¬ y < x * y := by
  rcases reads_or_infinity (le_of_lt hy) with ⟨q, hq, hqpos⟩ | hinf
  · obtain ⟨p, hp, hppos, hpone⟩ := exists_reads_unit hx hone
    have hproduct := hp.settles_mul hq
    rw [lt_iff_place (isNaN_of_lt hy).2 hproduct.isNaN, hq.place_eq, not_lt]
    exact hproduct.place_le q hq.isDouble (mul_le_of_le_one_left hqpos hpone)
  · intro hlt
    exact not_lt_of_le (le_infinity (isNaN_of_lt hlt).2 hinf) hlt

private theorem Reads.place_mul (hx : Reads x p) (hy : Reads y q) (h : |p * q| ≤ largest) :
    place (x * y) =
      valueOf (UnpackedFloat.mul Format.binary64 x.toModel.unpack y.toModel.unpack) := by
  obtain ⟨hxfinite, rfl⟩ := hx
  obtain ⟨hyfinite, rfl⟩ := hy
  have hrounded := rounded_mul (fits x).proper (fits y).proper hxfinite hyfinite
  have hunpack := (unpack_pack hrounded.proper).trans (hrounded.settle_eq h)
  calc place (x * y)
      = placeOf (UnpackedFloat.mul Format.binary64 x.toModel.unpack y.toModel.unpack) :=
        congrArg placeOf hunpack
    _ = valueOf (UnpackedFloat.mul Format.binary64 x.toModel.unpack y.toModel.unpack) :=
        placeOf_of_isFinite hrounded.isFinite

theorem mul_le_mul_of_unit {z : Float} (hx : 0 ≤ x) (hle : x ≤ y) (hone : y ≤ 1) (hz : 0 < z)
    (hfinite : z.isFinite = true) : x * z ≤ y * z := by
  obtain ⟨p, hp, hppos, hpone⟩ := exists_reads_unit hx (le_trans hle hone)
  obtain ⟨q, hq, hqpos, hqone⟩ := exists_reads_unit (le_trans hx hle) hone
  have hr := reads_value hfinite
  have hrpos := (reads_zero.lt_iff hr).1 hz
  have hpq := (hp.le_iff hq).1 hle
  rw [le_iff_place (hp.settles_mul hr).isNaN (hq.settles_mul hr).isNaN]
  rcases hppos.eq_or_lt with rfl | hppos
  · have hlow := (hp.settles_mul hr).place_le 0 reads_zero.isDouble (zero_mul _).le
    have hhigh := (hq.settles_mul hr).le_place 0 reads_zero.isDouble (mul_nonneg hqpos hrpos.le)
    exact hlow.trans hhigh
  · have hrange : ∀ part, 0 ≤ part → part ≤ 1 → |part * value z| ≤ largest := by
      intro part hlow hhigh
      rw [abs_of_nonneg (mul_nonneg hlow hrpos.le)]
      exact (mul_le_of_le_one_left hrpos.le hhigh).trans (le_of_abs_le hr.isDouble.2)
    rw [hp.place_mul hr (hrange p hppos.le hpone), hq.place_mul hr (hrange q hqpos hqone)]
    exact (hp.roundsTo_mul hr hppos hrpos).valueOf_le (hq.roundsTo_mul hr (hppos.trans_le hpq) hrpos)
      (mul_le_mul_of_nonneg_right hpq hrpos.le)

private theorem unpack_of_reads_zero (hx : Reads x 0) : ∃ s, x.toModel.unpack = .zero s := by
  obtain hunpack | ⟨s, significand, exponent, hpos, hunpack⟩ := cases_of_isFinite hx.isFinite
  · exact hunpack
  · have hvalue := hx.value_eq
    have hmagnitude := magnitude_pos hpos exponent
    rw [value, hunpack, ← abs_eq_zero, abs_valueOf_finite] at hvalue
    exact absurd hvalue hmagnitude.ne'

private theorem reads_of_unpack_zero {s : UnpackedFloat.Sign} (h : x.toModel.unpack = .zero s) :
    Reads x 0 :=
  ⟨congrArg UnpackedFloat.isFinite h, congrArg valueOf h⟩

theorem Reads.div_eq_zero (hx : Reads x 0) (hy : 0 < y) : Reads (x / y) 0 := by
  obtain ⟨s, hxunpack⟩ := unpack_of_reads_zero hx
  obtain ⟨s', hquotient⟩ : ∃ s', UnpackedFloat.div Format.binary64 x.toModel.unpack
      y.toModel.unpack = .zero s' := by
    rw [hxunpack]
    rcases reads_or_infinity (le_of_lt hy) with ⟨q, hq, -⟩ | hinf
    · obtain ⟨s', hyunpack⟩ | ⟨s', significand, exponent, hpos, hyunpack⟩ :=
        cases_of_isFinite hq.isFinite
      · rw [reads_zero.lt_iff (reads_of_unpack_zero hyunpack)] at hy
        exact absurd hy (lt_irrefl 0)
      · rw [hyunpack]
        exact ⟨_, rfl⟩
    · rw [hinf]
      exact ⟨_, rfl⟩
  have hmodel : (x / y).toModel.unpack = UnpackedFloat.unpack Format.binary64
      (UnpackedFloat.pack Format.binary64
        (UnpackedFloat.div Format.binary64 x.toModel.unpack y.toModel.unpack)) := rfl
  rw [hquotient] at hmodel
  exact reads_of_unpack_zero (hmodel.trans (unpack_pack trivial))

end Operations

end DropTable.Binary64
