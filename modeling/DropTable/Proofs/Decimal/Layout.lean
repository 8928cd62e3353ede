import Mathlib.Algebra.Order.Field.Power
import Mathlib.Data.List.TakeWhile
import Mathlib.Data.Rat.Cast.Order
import Mathlib.Tactic.NormNum
import DropTable.Decimal
/-!
# Reading decimals that are laid out

A decimal without an exponent is digits, and at most one point between digits.  Reading such text
gives the number that was laid out: the same decimal if there is a point, and the zeros as part of
the significand otherwise.
-/

namespace DropTable.Decimal

/-- The number that a decimal stands for. -/
def value (d : Decimal) : Rat :=
  d.significand * 10 ^ d.exponent

/-- Text of a decimal: digits, or digits with one point between them. -/
inductive Writes : Decimal → List Char → Prop
  | whole {digits : List Char} (hne : digits ≠ []) (hdigits : ∀ c ∈ digits, c.isDigit = true) :
      Writes ⟨digitsValue digits, 0⟩ digits
  | point {whole fraction : List Char} (hwhole : whole ≠ []) (hfraction : fraction ≠ [])
      (hdigits : ∀ c ∈ whole ++ fraction, c.isDigit = true) :
      Writes ⟨digitsValue (whole ++ fraction), -fraction.length⟩ (whole ++ '.' :: fraction)

theorem Writes.read?_eq {d : Decimal} {cs : List Char} (h : Writes d cs) : read? cs = some d := by
  cases h with
  | whole hne hdigits =>
      have htake : cs.takeWhile Char.isDigit = cs := List.takeWhile_eq_self_iff.2 hdigits
      have hdrop : cs.dropWhile Char.isDigit = [] := List.dropWhile_eq_nil_iff.2 hdigits
      simp [read?, htake, hdrop, splitFraction, readExponent?, hne]
  | @point whole fraction hwhole hfraction hdigits =>
      rw [List.forall_mem_append] at hdigits
      have htake : (whole ++ '.' :: fraction).takeWhile Char.isDigit = whole := by
        rw [List.takeWhile_append_of_pos hdigits.1]
        exact List.append_nil whole
      have hdrop : (whole ++ '.' :: fraction).dropWhile Char.isDigit = '.' :: fraction :=
        List.dropWhile_append_of_pos hdigits.1
      have hrest : fraction.takeWhile Char.isDigit = fraction :=
        List.takeWhile_eq_self_iff.2 hdigits.2
      have hend : fraction.dropWhile Char.isDigit = [] := List.dropWhile_eq_nil_iff.2 hdigits.2
      simp [read?, htake, hdrop, splitFraction, hrest, hend, readExponent?, hwhole]

/-! ## Digits -/

private theorem digitsValue_toDigits (n : Nat) : digitsValue (Nat.toDigits 10 n) = n :=
  Nat.ofDigitChars_ten_toDigits

private theorem digitsValue_append_zeros (digits : List Char) (count : Nat) :
    digitsValue (digits ++ List.replicate count '0') = digitsValue digits * 10 ^ count := by
  have happend := Nat.ofDigitChars_append (b := 10) (l := digits) (m := List.replicate count '0') 0
  rw [Nat.ofDigitChars_replicate_zero, Nat.mul_comm] at happend
  exact happend

private theorem digitsValue_zeros_append (count : Nat) (digits : List Char) :
    digitsValue (List.replicate count '0' ++ digits) = digitsValue digits := by
  have happend := Nat.ofDigitChars_append (b := 10) (l := List.replicate count '0') (m := digits) 0
  rw [Nat.ofDigitChars_replicate_zero, Nat.mul_zero] at happend
  exact happend

private theorem isDigit_of_mem_zeros {c : Char} {count : Nat} (h : c ∈ List.replicate count '0') :
    c.isDigit = true := by
  rw [List.eq_of_mem_replicate h]
  rfl

private theorem isDigit_of_mem_toDigits {n : Nat} {c : Char} (h : c ∈ Nat.toDigits 10 n) :
    c.isDigit = true :=
  Nat.isDigit_of_mem_toDigits (by decide) le_rfl h

/-! ## Size -/

section Size

variable (d : Decimal)

/-- The power of ten above the first digit. -/
def size : Int :=
  d.significand.repr.length + d.exponent

theorem pow_le_of_length_repr {n : Nat} (h : 0 < n) : 10 ^ (n.repr.length - 1) ≤ n := by
  by_cases hlength : n.repr.length = 1
  · rw [hlength]
    exact h
  · have hpos := Nat.length_repr_pos (n := n)
    rw [← not_lt, ← Nat.length_repr_le_iff (by omega)]
    omega

theorem pow_size_le_value (h : 0 < d.significand) : (10 : Rat) ^ (d.size - 1) ≤ d.value := by
  have hsignificand : (10 : Rat) ^ (d.significand.repr.length - 1) ≤ d.significand := by
    exact_mod_cast pow_le_of_length_repr h
  have hpos := Nat.length_repr_pos (n := d.significand)
  have hexponent : d.size - 1 = (d.significand.repr.length - 1 : Nat) + d.exponent := by
    unfold size
    omega
  rw [hexponent, zpow_add₀ (by norm_num), zpow_natCast]
  exact mul_le_mul_of_nonneg_right hsignificand (zpow_pos (by norm_num) _).le

theorem value_lt_pow_size : d.value < (10 : Rat) ^ d.size := by
  have hsignificand : (d.significand : Rat) < 10 ^ d.significand.repr.length := by
    exact_mod_cast (Nat.length_repr_le_iff Nat.length_repr_pos).1 le_rfl
  rw [size, zpow_add₀ (by norm_num), zpow_natCast]
  exact mul_lt_mul_of_pos_right hsignificand (zpow_pos (by norm_num) _)

end Size

/-! ## Layout -/

section Layout

variable (significand : Nat)

private theorem toList_positional_ofNat (zeros : Nat) :
    (positional ⟨significand, .ofNat zeros⟩).toList =
      Nat.toDigits 10 significand ++ List.replicate zeros '0' := by
  simp [positional]

/-- The digits behind the point are as many as the exponent asks for, and zeros in front make sure
that there is a digit before it. -/
private theorem exists_positional_negSucc (n : Nat) :
    ∃ whole fraction zeros,
      (positional ⟨significand, .negSucc n⟩).toList = whole ++ '.' :: fraction ∧
      whole ++ fraction = List.replicate zeros '0' ++ Nat.toDigits 10 significand ∧
      whole ≠ [] ∧ fraction.length = n + 1 := by
  let zeros := n + 1 + 1 - (Nat.toDigits 10 significand).length
  let padded := List.replicate zeros '0' ++ Nat.toDigits 10 significand
  have hlength : n + 1 + 1 ≤ padded.length := by
    rw [List.length_append, List.length_replicate]
    omega
  refine ⟨padded.take (padded.length - (n + 1)), padded.drop (padded.length - (n + 1)), zeros, ?_,
    List.take_append_drop _ _, ?_, ?_⟩
  · simp [positional, padded, zeros]
  · rw [← List.length_pos_iff, List.length_take]
    omega
  · rw [List.length_drop]
    omega

end Layout

theorem exists_writes_positional (d : Decimal) :
    ∃ d', Writes d' d.positional.toList ∧ d'.value = d.value := by
  obtain ⟨significand, exponent⟩ := d
  cases exponent with
  | ofNat zeros =>
      have hdigits : ∀ c ∈ Nat.toDigits 10 significand ++ List.replicate zeros '0',
          c.isDigit = true :=
        List.forall_mem_append.2 ⟨fun _ => isDigit_of_mem_toDigits, fun _ => isDigit_of_mem_zeros⟩
      have hwrites := Writes.whole (List.append_ne_nil_of_left_ne_nil Nat.toDigits_ne_nil _) hdigits
      rw [digitsValue_append_zeros, digitsValue_toDigits] at hwrites
      refine ⟨_, toList_positional_ofNat significand zeros ▸ hwrites, ?_⟩
      simp [value]
  | negSucc n =>
      obtain ⟨whole, fraction, zeros, htext, hpadded, hwhole, hlength⟩ :=
        exists_positional_negSucc significand n
      have hfraction : fraction ≠ [] := by
        rw [← List.length_pos_iff]
        omega
      have hdigits : ∀ c ∈ whole ++ fraction, c.isDigit = true := by
        rw [hpadded]
        exact List.forall_mem_append.2
          ⟨fun _ => isDigit_of_mem_zeros, fun _ => isDigit_of_mem_toDigits⟩
      have hwrites := Writes.point hwhole hfraction hdigits
      rw [hpadded, digitsValue_zeros_append, digitsValue_toDigits, hlength] at hwrites
      exact ⟨_, htext ▸ hwrites, rfl⟩

end DropTable.Decimal
