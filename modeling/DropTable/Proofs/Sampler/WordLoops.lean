import Mathlib.Data.Nat.Bitwise
import DropTable.Proofs.Sampler.Blocks
/-!
# Climbs and descents in machine words

In words of some width the lowest bit of a number is what it shares with its negative.  As long as
twice the size of a tree is a word, neither of the loops over its nodes leaves the words: both come
to an end, after turns at exactly the nodes of a climb or a descent.
-/

namespace DropTable.Fenwick

/-! ## The lowest bit of a word -/

private theorem and_complement {width n : Nat} (hn : n < 2 ^ width) :
    n &&& (2 ^ width - (n + 1)) = 0 := by
  apply Nat.eq_of_testBit_eq
  intro i
  rw [Nat.testBit_and, Nat.testBit_two_pow_sub_succ hn, Nat.zero_testBit]
  cases n.testBit i <;> simp

private theorem and_negative {width n : Nat} (hpos : 0 < n) (hn : n < 2 ^ width) :
    n &&& (2 ^ width - n) = lowBit n := by
  induction width generalizing n with
  | zero => omega
  | succ width ih =>
      rcases Nat.mod_two_eq_zero_or_one n with heven | hodd
      · obtain ⟨half, rfl⟩ : ∃ half, n = 2 * half := ⟨n / 2, by omega⟩
        have hnegative : 2 ^ (width + 1) - 2 * half = 2 * (2 ^ width - half) := by omega
        have hand := Nat.land_bit false half false (2 ^ width - half)
        simp only [Nat.bit_false_apply, Bool.and_false] at hand
        rw [hnegative, hand, ih (by omega) (by omega), lowBit_double]
      · obtain ⟨half, rfl⟩ : ∃ half, n = 2 * half + 1 := ⟨n / 2, by omega⟩
        have hnegative : 2 ^ (width + 1) - (2 * half + 1) = 2 * (2 ^ width - (half + 1)) + 1 := by
          omega
        have hand := Nat.land_bit true half true (2 ^ width - (half + 1))
        simp only [Nat.bit_true_apply, Bool.and_true] at hand
        rw [hnegative, hand, and_complement (by omega), lowBit_odd hodd]

variable {width : Nat}

/-- What a word shares with its negative. -/
def wordLowBit (x : BitVec width) : BitVec width :=
  x &&& -x

theorem toNat_wordLowBit (x : BitVec width) : (wordLowBit x).toNat = lowBit x.toNat := by
  rw [wordLowBit, BitVec.toNat_and, BitVec.toNat_neg]
  rcases Nat.eq_zero_or_pos x.toNat with hzero | hpos
  · rw [hzero, Nat.zero_and, lowBit, if_pos rfl]
  · rw [Nat.mod_eq_of_lt (by omega), and_negative hpos x.isLt]

/-! ## Loops over words -/

/-- A loop that is at a word comes to an end after turns at these values.  It goes on while a test
holds, and the next word of a turn may be missing because it is no word. -/
inductive Loop (goesOn : BitVec width → Bool) (next? : BitVec width → Option (BitVec width)) :
    BitVec width → List Nat → Prop
  | stop {x} : goesOn x = false → Loop goesOn next? x []
  | turn {x y rest} : goesOn x = true → next? x = some y → Loop goesOn next? y rest →
      Loop goesOn next? x (x.toNat :: rest)

theorem Loop.unique {goesOn : BitVec width → Bool} {next? : BitVec width → Option (BitVec width)}
    {x : BitVec width} {visited visited' : List Nat} (h : Loop goesOn next? x visited)
    (h' : Loop goesOn next? x visited') : visited' = visited := by
  induction h generalizing visited' with
  | stop hstop =>
      cases h' with
      | stop => rfl
      | turn hgoes => rw [hstop] at hgoes; contradiction
  | turn hgoes hnext _ ih =>
      cases h' with
      | stop hstop => rw [hstop] at hgoes; contradiction
      | turn _ hnext' hrest =>
          cases hnext.symm.trans hnext'
          rw [ih hrest]

/-- The word above by the lowest bit, unless that is too large for a word. -/
def above? (x : BitVec width) : Option (BitVec width) :=
  if x.uaddOverflow (wordLowBit x) then none else some (x + wordLowBit x)

def below? (x : BitVec width) : Option (BitVec width) :=
  if x.usubOverflow (wordLowBit x) then none else some (x - wordLowBit x)

/-- The loop that a change of a weight makes over the nodes of a tree. -/
def ClimbLoop (size : Nat) : BitVec width → List Nat → Prop :=
  Loop (fun x => decide (x.toNat ≤ size)) above?

/-- The loop that adds up a sum. -/
def DescentLoop : BitVec width → List Nat → Prop :=
  Loop (fun x => decide (0 < x.toNat)) below?

theorem climbLoop {size : Nat} (hfits : 2 * size < 2 ^ width) {x : BitVec width}
    (hx : 0 < x.toNat) : ClimbLoop size x (climb size x.toNat) := by
  generalize hstart : x.toNat = start at hx
  fun_induction climb size start generalizing x with
  | case1 start h ih =>
      subst hstart
      have hle := lowBit_le x.toNat
      have hword : ¬ x.uaddOverflow (wordLowBit x) = true := by
        rw [BitVec.uaddOverflow, toNat_wordLowBit, decide_eq_true_iff]
        omega
      have hnext : (x + wordLowBit x).toNat = x.toNat + lowBit x.toNat := by
        rw [BitVec.toNat_add_of_not_uaddOverflow hword, toNat_wordLowBit]
      have habove : above? x = some (x + wordLowBit x) := by
        rw [above?, if_neg hword]
      exact .turn (decide_eq_true h.2) habove (ih hnext (by omega))
  | case2 start h =>
      refine .stop (decide_eq_false ?_)
      omega

theorem descentLoop (x : BitVec width) : DescentLoop x (descend x.toNat) := by
  generalize hstart : x.toNat = start
  fun_induction descend start generalizing x with
  | case1 start hpos ih =>
      subst hstart
      have hle := lowBit_le x.toNat
      have hword : ¬ x.usubOverflow (wordLowBit x) = true := by
        rw [BitVec.usubOverflow, toNat_wordLowBit, decide_eq_true_iff]
        omega
      have hnext : (x - wordLowBit x).toNat = x.toNat - lowBit x.toNat := by
        rw [BitVec.toNat_sub_of_not_usubOverflow hword, toNat_wordLowBit]
      have hbelow : below? x = some (x - wordLowBit x) := by
        rw [below?, if_neg hword]
      exact .turn (decide_eq_true hpos) hbelow (ih _ hnext)
  | case2 start hzero =>
      refine .stop (decide_eq_false ?_)
      omega

/-- As long as twice the size of a tree is a word, a change of a weight and a sum both come to an
end in machine words, after turns at the nodes of a climb and of a descent.  Neither visits a node
twice, and both visit exactly one in common if the changed position is among those that are summed,
and none if it is behind them. -/
theorem loops_cross_once {width size index last : Nat} (hindex : index < size)
    (hlast : last < size) (hfits : 2 * size < 2 ^ width) :
    (∀ visited, ClimbLoop size (BitVec.ofNat width (index + 1)) visited ↔
      visited = climb size (index + 1)) ∧
    (∀ visited, DescentLoop (BitVec.ofNat width (last + 1)) visited ↔
      visited = descend (last + 1)) ∧
    (climb size (index + 1)).Nodup ∧ (descend (last + 1)).Nodup ∧
    (index ≤ last → ∃! node, node ∈ climb size (index + 1) ∧ node ∈ descend (last + 1)) ∧
    (last < index → (climb size (index + 1)).Disjoint (descend (last + 1))) := by
  have hword : ∀ position < size, (BitVec.ofNat width (position + 1)).toNat = position + 1 := by
    intro position hposition
    rw [BitVec.toNat_ofNat, Nat.mod_eq_of_lt (by omega)]
  have hclimb : ClimbLoop size (BitVec.ofNat width (index + 1)) (climb size (index + 1)) := by
    have hpos : 0 < (BitVec.ofNat width (index + 1)).toNat := by
      rw [hword index hindex]
      omega
    have hloop := climbLoop hfits hpos
    rwa [hword index hindex] at hloop
  have hdescent : DescentLoop (BitVec.ofNat width (last + 1)) (descend (last + 1)) := by
    have hloop := descentLoop (BitVec.ofNat width (last + 1))
    rwa [hword last hlast] at hloop
  refine ⟨?_, ?_, nodup_climb _ _, nodup_descend _, ?_, ?_⟩
  · intro visited
    exact ⟨hclimb.unique, fun h => h ▸ hclimb⟩
  · intro visited
    exact ⟨hdescent.unique, fun h => h ▸ hdescent⟩
  · intro hle
    exact existsUnique_mem_climb_descend (Nat.succ_pos index) (by omega) (by omega)
  · intro hlt
    exact disjoint_climb_descend (by omega)

/-- With ten weights, the sum of the first nine finds a change of the fifth in the eighth node. -/
theorem loops_cross_once_ten :
    4 < 10 ∧ 8 < 10 ∧ 2 * 10 < 2 ^ 64 ∧
      ClimbLoop 10 (BitVec.ofNat 64 5) [5, 6, 8] ∧ DescentLoop (BitVec.ofNat 64 9) [9, 8] ∧
      ∃! node, node ∈ climb 10 5 ∧ node ∈ descend 9 := by
  have hfits : 2 * 10 < 2 ^ 64 := by decide
  obtain ⟨hclimb, hdescent, -, -, hcross, -⟩ :=
    loops_cross_once (show 4 < 10 by decide) (show 8 < 10 by decide) hfits
  refine ⟨by decide, by decide, hfits, (hclimb _).2 ?_, (hdescent _).2 ?_, hcross (by decide)⟩
  · simp [climb, lowBit]
  · simp [descend, lowBit]

end DropTable.Fenwick
