import Mathlib.Algebra.BigOperators.Ring.Finset
import DropTable.Proofs.Binary64.Values
import DropTable.Proofs.Sampler.PrefixSums
/-!
# Weights on a grid

Weights that are whole multiples of one power of two can be added up without rounding as long as
there are few enough of these in all.  So can be what a run of changes makes of them on the way from
one list to another, with twice as many.
-/

namespace DropTable

open Binary64

/-- Weights that are so many units each, with no more than `2 ^ room` units in all. -/
structure OnGrid (unit : Int) (room : Nat) (weights : List Rat) : Prop where
  whole : ∀ w ∈ weights, ∃ count : Nat, w = count * 2 ^ unit
  sum_le : weights.sum ≤ 2 ^ room * 2 ^ unit

/-- Units of which no less than `2 ^ 53` can be counted in doubles. -/
structure Countable (unit : Int) : Prop where
  least : -1074 ≤ unit
  greatest : unit ≤ 970

theorem Countable.isDouble {unit count : Int} (h : Countable unit) (hcount : |count| ≤ 2 ^ 53) :
    IsDouble (count * 2 ^ unit) := by
  refine ⟨⟨count, unit, hcount, h.least, rfl⟩, ?_⟩
  have hcast : |(count : Rat)| ≤ 2 ^ 53 := by exact_mod_cast hcount
  have hunit : (0 : Rat) < 2 ^ unit := zpow_pos two_pos unit
  have hpower : (2 : Rat) ^ unit * 2 ≤ 2 ^ (971 : Int) := by
    rw [← zpow_add_one₀ (by norm_num)]
    exact zpow_le_zpow_right₀ (by norm_num) (by have := h.greatest; omega)
  rw [abs_mul, abs_of_pos hunit, largest]
  calc |(count : Rat)| * 2 ^ unit ≤ 2 ^ 53 * 2 ^ unit :=
        mul_le_mul_of_nonneg_right hcast hunit.le
    _ ≤ (2 ^ 53 - 1) * (2 ^ unit * 2) := by
        rw [mul_comm (2 ^ unit) 2, ← mul_assoc]
        exact mul_le_mul_of_nonneg_right (by norm_num) hunit.le
    _ ≤ (2 ^ 53 - 1) * 2 ^ (971 : Int) := mul_le_mul_of_nonneg_left hpower (by norm_num)

private theorem exists_count_sum {unit : Int} {weights : List Rat}
    (h : ∀ w ∈ weights, ∃ count : Nat, w = count * 2 ^ unit) :
    ∃ count : Nat, weights.sum = count * 2 ^ unit := by
  induction weights with
  | nil => exact ⟨0, by simp⟩
  | cons w weights ih =>
      obtain ⟨⟨count, rfl⟩, hrest⟩ := List.forall_mem_cons.1 h
      obtain ⟨more, hmore⟩ := ih hrest
      refine ⟨count + more, ?_⟩
      rw [List.sum_cons, hmore]
      push_cast
      ring

theorem onGrid_natCast {room : Nat} {counts : List Nat} (h : counts.sum ≤ 2 ^ room) :
    OnGrid 0 room (counts.map (↑)) := by
  refine ⟨?_, ?_⟩
  · intro w hw
    obtain ⟨count, -, rfl⟩ := List.mem_map.1 hw
    exact ⟨count, by simp⟩
  · rw [← Nat.cast_list_sum, zpow_zero, mul_one]
    exact_mod_cast h

namespace OnGrid

variable {unit : Int} {room : Nat} {weights : List Rat}

theorem nonneg (h : OnGrid unit room weights) : ∀ w ∈ weights, 0 ≤ w := by
  intro w hw
  obtain ⟨count, rfl⟩ := h.whole w hw
  exact mul_nonneg (Nat.cast_nonneg count) (zpow_pos two_pos unit).le

private theorem count_le (h : OnGrid unit room weights) {count : Nat}
    (hle : count * 2 ^ unit ≤ weights.sum) : count ≤ 2 ^ room := by
  have hunits := hle.trans h.sum_le
  rw [mul_le_mul_iff_left₀ (zpow_pos two_pos unit)] at hunits
  exact_mod_cast hunits

private theorem exists_count (h : OnGrid unit room weights) {first last : Nat}
    (hle : first ≤ last) :
    ∃ count : Nat, count ≤ 2 ^ room ∧
      prefixSum weights last - prefixSum weights first = count * 2 ^ unit := by
  have hbetween : prefixSum weights last - prefixSum weights first =
      ((weights.take last).drop first).sum := by
    rw [prefixSum, ← List.sum_take_add_sum_drop (weights.take last) first, List.take_take,
      Nat.min_eq_left hle, prefixSum, add_sub_cancel_left]
  have hwhole : ∀ w ∈ (weights.take last).drop first, ∃ count : Nat, w = count * 2 ^ unit :=
    fun w hw => h.whole w (List.mem_of_mem_take (List.mem_of_mem_drop hw))
  obtain ⟨count, hcount⟩ := exists_count_sum hwhole
  refine ⟨count, h.count_le ?_, hbetween.trans hcount⟩
  have hlast : prefixSum weights last ≤ weights.sum := by
    rw [← List.sum_take_add_sum_drop weights last]
    exact le_add_of_nonneg_right (List.sum_nonneg fun w hw => h.nonneg w (List.mem_of_mem_drop hw))
  have hfirst := prefixSum_nonneg h.nonneg first
  rw [← hcount, ← hbetween]
  linarith

theorem isDouble (h : OnGrid unit 53 weights) (hunit : Countable unit) {first last : Nat}
    (hle : first ≤ last) : IsDouble (prefixSum weights last - prefixSum weights first) := by
  obtain ⟨count, hcount, hsum⟩ := h.exists_count hle
  have hbits : |(count : Int)| ≤ 2 ^ 53 := by
    rw [abs_of_nonneg (Int.natCast_nonneg count)]
    exact_mod_cast hcount
  rw [hsum]
  exact_mod_cast hunit.isDouble hbits

theorem isDouble_sub {weights' : List Rat} (h : OnGrid unit 53 weights) (hunit : Countable unit)
    (h' : OnGrid unit 53 weights') {w w' : Rat} (hw : w ∈ weights) (hw' : w' ∈ weights') :
    IsDouble (w - w') := by
  obtain ⟨count, rfl⟩ := h.whole w hw
  obtain ⟨count', rfl⟩ := h'.whole w' hw'
  have hle := h.count_le (List.single_le_sum h.nonneg _ hw)
  have hle' := h'.count_le (List.single_le_sum h'.nonneg _ hw')
  have hbits : |(count : Int) - count'| ≤ 2 ^ 53 := by
    rw [abs_le]
    omega
  rw [← sub_mul]
  exact_mod_cast hunit.isDouble hbits

end OnGrid

/-! ## On the way from one list to another -/

/-- A list in which some places are as in one list and the others as in another. -/
inductive Between {β : Type} : List β → List β → List β → Prop
  | nil : Between [] [] []
  | cons {x y z : β} {xs ys zs : List β} (head : z = x ∨ z = y) (tail : Between xs ys zs) :
      Between (x :: xs) (y :: ys) (z :: zs)

namespace Between

variable {β : Type} {old new mixed : List β}

theorem start (h : old.length = new.length) : Between old new old := by
  induction old generalizing new with
  | nil =>
      rw [List.length_eq_zero_iff.1 h.symm]
      exact .nil
  | cons x old ih =>
      obtain ⟨y, new, rfl⟩ := List.exists_cons_of_length_eq_add_one h.symm
      exact .cons (.inl rfl) (ih (Nat.succ_inj.1 h))

theorem set (h : Between old new mixed) {index : Nat} {y : β} (hy : new[index]? = some y) :
    Between old new (mixed.set index y) := by
  induction h generalizing index with
  | nil => contradiction
  | cons head tail ih =>
      cases index with
      | zero =>
          rw [List.getElem?_cons_zero, Option.some.injEq] at hy
          exact .cons (.inr hy.symm) tail
      | succ index => exact .cons head (ih hy)

private theorem mem (h : Between old new mixed) : ∀ z ∈ mixed, z ∈ old ∨ z ∈ new := by
  induction h with
  | nil => simp
  | cons head tail ih =>
      intro z hz
      rcases List.mem_cons.1 hz with rfl | hz
      · rcases head with rfl | rfl <;> simp
      · rcases ih z hz with hold | hnew
        · exact .inl (List.mem_cons_of_mem _ hold)
        · exact .inr (List.mem_cons_of_mem _ hnew)

private theorem sum_le {old new mixed : List Rat} (h : Between old new mixed)
    (hold : ∀ w ∈ old, 0 ≤ w) (hnew : ∀ w ∈ new, 0 ≤ w) : mixed.sum ≤ old.sum + new.sum := by
  induction h with
  | nil => simp
  | cons head tail ih =>
      obtain ⟨hx, hxs⟩ := List.forall_mem_cons.1 hold
      obtain ⟨hy, hys⟩ := List.forall_mem_cons.1 hnew
      have hrest := ih hxs hys
      simp only [List.sum_cons]
      rcases head with rfl | rfl <;> linarith

/-- Half of the room at either end leaves enough on the way. -/
theorem onGrid {old new mixed : List Rat} {unit : Int} {room : Nat} (h : Between old new mixed)
    (hold : OnGrid unit room old) (hnew : OnGrid unit room new) : OnGrid unit (room + 1) mixed := by
  refine ⟨?_, ?_⟩
  · intro w hw
    rcases h.mem w hw with hw | hw
    · exact hold.whole w hw
    · exact hnew.whole w hw
  · have hsum := h.sum_le hold.nonneg hnew.nonneg
    have hends := add_le_add hold.sum_le hnew.sum_le
    rw [pow_succ]
    linarith

end Between

end DropTable
