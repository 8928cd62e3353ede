import DropTable.Numeral.Binary64
import DropTable.Proofs.Binary64.Scientific
import DropTable.Proofs.Decimal.Shortest
/-!
# The numbers that a double owns

Every double owns the numbers nearer to it than to its neighbours, and whatever it owns is rounded
to it, at whichever exponent it is rounded.  So every decimal that a double owns is read as the
double.  None of them is large or small enough to be settled by its size alone.
-/

namespace DropTable.Binary64

open Float.Model Float.Model.UnpackedFloat

/-! ## Owned numbers -/

/-- A double without its sign, as a binary number.  The neighbour below a power of two is nearer
than the one above, unless both are as near as can be. -/
def binary (significand : Nat) (exponent : Int) : Decimal.Binary :=
  ⟨significand, exponent, significand = 2 ^ 52 ∧ exponent ≠ -1074⟩

section Owned

variable {significand : Nat} {exponent last : Int} {q : Rat}

private theorem carried_of_lt (s : Sign) (hpos : 0 < significand) (h : significand < 2 ^ 53)
    (exponent : Int) : carried s significand exponent = .finite s significand exponent hpos := by
  rw [carried, dif_neg hpos.ne', if_pos h]

private theorem nearest_of_owns (h : (binary significand exponent).Owns q) :
    Nearest significand (q / 2 ^ exponent) := by
  have hpower : (0 : Rat) < 2 ^ exponent := zpow_pos two_pos exponent
  have hgap := (binary significand exponent).gap_le
  refine ⟨(div_le_iff₀ hpower).2 h.le_high, (le_div_iff₀ hpower).2 ?_, fun hend => ?_⟩
  · exact (mul_le_mul_of_nonneg_right (sub_le_sub_left hgap _) hpower.le).trans h.low_le
  · -- The ends of the interval of an odd number are half a unit away, and are not its own.
    by_contra hodd
    have hhalf : (binary significand exponent).gap = 1 / 2 := by
      have hwide : ¬ (significand = 2 ^ 52 ∧ exponent ≠ -1074) := by omega
      simp only [Decimal.Binary.gap, binary, hwide, decide_false, Bool.false_eq_true, if_false]
    obtain ⟨hlow, hhigh⟩ := h.inner (by simpa [Decimal.Binary.closed, binary] using hodd)
    rw [Decimal.Binary.low, hhalf] at hlow
    rw [div_eq_iff hpower.ne', div_eq_iff hpower.ne'] at hend
    rcases hend with rfl | rfl
    · exact lt_irrefl _ hhigh
    · exact lt_irrefl _ hlow

private theorem last_eq_of_owns (h : (binary significand exponent).Owns q)
    (hcanonical : Canonical significand exponent) (hlast : Scaled last q) :
    last = exponent ∨ significand = 2 ^ 52 ∧ exponent = last + 1 := by
  have hbits : (significand : Rat) + 1 ≤ 2 ^ 53 := by exact_mod_cast hcanonical.lt
  have hnearest := nearest_of_owns h
  rcases lt_trichotomy last exponent with hlt | heq | hgt
  -- Below a power of two the units are half as long, so that the number has a lower exponent there.
  · right
    have hfull : (2 : Rat) ^ 52 ≤ significand := by
      have hleast := hlast.least
      exact_mod_cast hcanonical.full.resolve_right (by omega)
    have hlow := hnearest.sub_le
    rw [le_div_iff₀ (zpow_pos two_pos exponent)] at hlow
    have hbelow := hlow.trans_lt hlast.lt
    have hnext : exponent = last + 1 := by
      by_contra hne
      have htwice : (2 : Rat) ^ last * 2 ≤ 2 ^ (last + 1) := two_zpow_mul_two_le (lt_add_one last)
      have hmore : (2 : Rat) ^ (last + 1) * 2 ≤ 2 ^ exponent := two_zpow_mul_two_le (by omega)
      have hscale : (2 ^ 52 - 1 / 2) * (2 ^ last * 2 * 2) ≤
          ((significand : Rat) - 1 / 2) * 2 ^ exponent :=
        mul_le_mul (by linarith) (by linarith) (by positivity) (by linarith)
      linarith [zpow_pos (two_pos : (0 : Rat) < 2) last]
    rw [hnext, zpow_add_one₀ two_ne_zero, mul_comm (2 ^ last) 2, ← mul_assoc,
      mul_lt_mul_iff_left₀ (zpow_pos two_pos last)] at hbelow
    have hnear : (significand : Rat) < 2 ^ 52 + 1 := by linarith
    have hnear' : significand < 2 ^ 52 + 1 := by exact_mod_cast hnear
    have hfull' : 2 ^ 52 ≤ significand := by exact_mod_cast hfull
    exact ⟨by omega, hnext⟩
  · exact .inl heq
  · have hfull := hlast.full (hcanonical.least.trans_lt hgt)
    have htwice : (2 : Rat) ^ exponent * 2 ≤ 2 ^ last := two_zpow_mul_two_le hgt
    have hhigh : q ≤ (significand + 1 / 2) * 2 ^ exponent := h.le_high
    have hbelow : ((significand : Rat) + 1 / 2) * 2 ^ exponent < 2 ^ 53 * 2 ^ exponent :=
      mul_lt_mul_of_pos_right (by linarith) (zpow_pos two_pos exponent)
    linarith

private theorem eq_of_owns {s : Sign} (h : (binary significand exponent).Owns q)
    (hcanonical : Canonical significand exponent) (hpos : 0 < significand) {u : UnpackedFloat}
    (hround : RoundsTo s q u) : u = .finite s significand exponent hpos := by
  obtain ⟨n, last, rfl, hscaled, hnearest⟩ := hround
  obtain rfl | ⟨rfl, rfl⟩ := last_eq_of_owns h hcanonical hscaled
  · rw [← (nearest_of_owns h).unique hnearest, carried_of_lt s hpos hcanonical.lt]
  · -- The whole number of the lower units is the next power of two.
    have hcarry : Nearest (2 ^ 53) (q / 2 ^ last) := by
      have hleast := hscaled.least
      have hquarter : (binary (2 ^ 52) (last + 1)).gap = 1 / 4 :=
        if_pos (decide_eq_true ⟨rfl, by omega⟩)
      have hlow : ((2 ^ 52 : Nat) - (binary (2 ^ 52) (last + 1)).gap) * 2 ^ (last + 1) ≤ q :=
        h.low_le
      rw [hquarter, zpow_add_one₀ two_ne_zero] at hlow
      refine ⟨?_, ?_, fun _ => rfl⟩
      · push_cast
        linarith [hscaled.units_lt]
      · rw [le_div_iff₀ (zpow_pos two_pos last)]
        push_cast at hlow ⊢
        linarith
    rw [← hcarry.unique hnearest]
    rfl

/-! ## Owned decimals -/

private theorem le_of_owns (h : (binary significand exponent).Owns q)
    (hcanonical : Canonical significand exponent) (hpos : 0 < significand) :
    2 ^ (-1075 : Int) ≤ q := by
  have hone : (1 : Rat) ≤ significand := by exact_mod_cast hpos
  have hleast : (2 : Rat) ^ (-1074 : Int) ≤ 2 ^ exponent :=
    zpow_le_zpow_right₀ one_le_two hcanonical.least
  have hhalf : (2 : Rat) ^ (-1075 : Int) = 1 / 2 * 2 ^ (-1074 : Int) := by
    rw [one_div, ← zpow_neg_one, ← zpow_add₀ two_ne_zero]
    rfl
  have hlow := (nearest_of_owns h).sub_le
  rw [le_div_iff₀ (zpow_pos two_pos exponent)] at hlow
  calc (2 : Rat) ^ (-1075 : Int) = 1 / 2 * 2 ^ (-1074 : Int) := hhalf
    _ ≤ (significand - 1 / 2) * 2 ^ exponent :=
      mul_le_mul (by linarith) hleast (zpow_pos two_pos _).le (by linarith)
    _ ≤ q := hlow

private theorem lt_of_owns (h : (binary significand exponent).Owns q)
    (hcanonical : Canonical significand exponent) (hlast : exponent ≤ 971) :
    q < 2 ^ (1024 : Int) := by
  have hbits : (significand : Rat) + 1 ≤ 2 ^ 53 := by exact_mod_cast hcanonical.lt
  have hpower : (2 : Rat) ^ exponent ≤ 2 ^ (971 : Int) := zpow_le_zpow_right₀ one_le_two hlast
  calc q ≤ (significand + 1 / 2) * 2 ^ exponent := h.le_high
    _ < 2 ^ 53 * 2 ^ exponent := mul_lt_mul_of_pos_right (by linarith) (zpow_pos two_pos _)
    _ ≤ 2 ^ 53 * 2 ^ (971 : Int) := mul_le_mul_of_nonneg_left hpower (by norm_num)
    _ = 2 ^ (1024 : Int) := by
      rw [← zpow_natCast, ← zpow_add₀ two_ne_zero]
      norm_num

private theorem significand_pos_of_owns {d : Decimal}
    (h : (binary significand exponent).Owns d.value)
    (hcanonical : Canonical significand exponent) (hpos : 0 < significand) : 0 < d.significand := by
  have hlow := le_of_owns h hcanonical hpos
  rw [Nat.pos_iff_ne_zero]
  intro hzero
  rw [Decimal.value, hzero, Nat.cast_zero, zero_mul] at hlow
  exact absurd (zpow_pos two_pos _) (not_lt.2 hlow)

private theorem size_of_owns {d : Decimal} (h : (binary significand exponent).Owns d.value)
    (hcanonical : Canonical significand exponent) (hpos : 0 < significand) (hlast : exponent ≤ 971) :
    -323 ≤ d.size ∧ d.size ≤ 309 := by
  have hlow := le_of_owns h hcanonical hpos
  have hhigh := lt_of_owns h hcanonical hlast
  have hdigits := significand_pos_of_owns h hcanonical hpos
  constructor
  · by_contra hlt
    have hpower : (10 : Rat) ^ d.size ≤ 10 ^ (-324 : Int) :=
      zpow_le_zpow_right₀ (by norm_num) (by omega)
    have htiny : (10 : Rat) ^ (-324 : Int) ≤ 2 ^ (-1075 : Int) := by
      have hnat : 2 ^ 1075 ≤ 10 ^ 324 := by decide +kernel
      rw [zpow_neg, zpow_neg]
      exact inv_anti₀ (zpow_pos two_pos 1075) (by exact_mod_cast hnat)
    exact absurd (hlow.trans_lt d.value_lt_pow_size) (not_lt.2 (hpower.trans htiny))
  · by_contra hlt
    have hpower : (10 : Rat) ^ (309 : Int) ≤ 10 ^ (d.size - 1) :=
      zpow_le_zpow_right₀ (by norm_num) (by omega)
    have hhuge : (2 : Rat) ^ (1024 : Int) ≤ 10 ^ (309 : Int) := by
      have hnat : 2 ^ 1024 ≤ 10 ^ 309 := by decide +kernel
      exact_mod_cast hnat
    exact absurd (hhuge.trans (hpower.trans (d.pow_size_le_value hdigits))) (not_le.2 hhigh)

end Owned

theorem ofDecimal_of_owns {x : Float} {significand : Nat} {exponent : Int} {hpos : 0 < significand}
    (hx : x.toModel.unpack = .finite .positive significand exponent hpos) {d : Decimal}
    (h : (binary significand exponent).Owns d.value) : ofDecimal d = x := by
  have hfits := fits x
  rw [hx] at hfits
  obtain ⟨hcanonical, hlast⟩ := hfits
  have hdigits := significand_pos_of_owns h hcanonical hpos
  obtain ⟨hsmall, hlarge⟩ := size_of_owns h hcanonical hpos hlast
  rw [Decimal.size] at hsmall hlarge
  -- A significand has at least as many bits as digits.
  have hlog : d.significand.repr.length - 1 ≤ d.significand.log2 := by
    rw [Nat.le_log2 hdigits.ne']
    exact (Nat.pow_le_pow_left (by decide) _).trans (Decimal.pow_le_of_length_repr hdigits)
  have hlength := Nat.length_repr_pos (n := d.significand)
  have hlow : -(2 ^ 11 + (d.significand.log2 : Int)) ≤ d.exponent := by omega
  obtain ⟨u, hu, hround⟩ := exists_ofScientific hdigits hlow (by omega)
  unfold ofDecimal
  dsimp only
  rw [if_neg (by omega), if_neg (by omega), hu, eq_of_owns h hcanonical hpos hround, ← hx,
    ofModel_pack_unpack]

end DropTable.Binary64
