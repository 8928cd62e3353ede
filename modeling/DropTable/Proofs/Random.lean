import DropTable.Random
/-!
# Numbers from random words

Whatever words are still to come, the number drawn from them is below its bound.
-/

namespace DropTable.Words

private theorem lt_of_accept? {bound : Nat} (hbound : 0 < bound) {word : UInt64} {n : Nat}
    (h : accept? bound word = some n) : n < bound := by
  simp only [accept?, Option.ite_none_right_eq_some, Option.some.injEq] at h
  obtain ⟨-, rfl⟩ := h
  have hword : word.toNat < UInt64.size := word.toNat_lt_size
  rw [Nat.div_lt_iff_lt_mul (by decide), Nat.mul_comm bound]
  exact Nat.mul_lt_mul_of_pos_right hword hbound

theorem below_lt {bound : Nat} (hbound : 0 < bound) (words : Words) :
    (words.below bound).1 < bound := by
  have hgo : ∀ (upcoming : List UInt64) (taken : Nat),
      (below.go bound taken upcoming).1 < bound := by
    intro upcoming
    induction upcoming with
    | nil => exact fun _ => hbound
    | cons word rest ih =>
        intro taken
        unfold below.go
        cases haccept : accept? bound word with
        | none => exact ih (taken + 1)
        | some n => exact lt_of_accept? hbound haccept
  exact hgo _ _

end DropTable.Words
