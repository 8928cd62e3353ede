import DropTable.Proofs.Sampler.DoubleDraws
import DropTable.Proofs.Sampler.Search
import DropTable.Proofs.Sampler.Slots
/-!
# Greater draws select no smaller indices

A draw asks for a part of the total, and a greater draw for no smaller part.  Whatever reaches the
greater part reaches the smaller one, and that alone keeps two searches in order, step by step.  The
sums that are searched need not be: in a tree of doubles they may have been rounded out of order, or
below zero.
-/

namespace DropTable.Sampler

open Binary64

/-- Draws in order select indices in order, and all of them select an index or none does.  There is
no NaN among draws in order. -/
structure Ascends (s : Sampler Float) : Prop where
  isSome_iff : ∀ first second : Float, first ≤ second →
    ((s.select? first).isSome = true ↔ (s.select? second).isSome = true)
  index_le : ∀ (first second : Float) (index index' : Nat), first ≤ second →
    s.select? first = some index → s.select? second = some index' → index ≤ index'

private theorem exists_search {s : Sampler Float} (hs : s.strategy ≠ .aliasBuckets) :
    ∃ find : Float → Nat, (∀ draw, s.select? draw = (Draw.target? draw s.total).map find) ∧
      ∀ target target', target ≤ target' → find target ≤ find target' := by
  cases s with
  | cumulative c =>
      refine ⟨fun target => min (Cumulative.rank c.sums target) (c.sums.length - 1),
        fun draw => rfl, fun target target' hle => ?_⟩
      have hrank : Cumulative.rank c.sums target ≤ Cumulative.rank c.sums target' :=
        Cumulative.rank_le_rank fun sum hsum => lt_of_lt_of_le hsum hle
      dsimp only
      omega
  | fenwick f =>
      refine ⟨fun target => Fenwick.search (fun index => target ≤ f.sumTo index) 0 (f.size - 1),
        fun draw => rfl, fun target target' hle => ?_⟩
      apply Fenwick.search_le_search _ (Nat.zero_le _)
      intro index hreaches
      exact decide_eq_true (le_trans hle (of_decide_eq_true hreaches))
  | aliasBuckets a => exact absurd rfl hs

theorem target?_eq {draw : Float} (hdraw : draw.isNaN = false) (total : Float) :
    Draw.target? draw total =
      if 0 < total then some (Scalar.clamp 0 1 draw * total) else none := by
  have htarget : Draw.target? draw total =
      if !draw.isNaN && decide (0 < total) then some (Scalar.clamp 0 1 draw * total) else none := rfl
  rw [htarget, hdraw]
  simp

private theorem ascends_of_isFinite {s : Sampler Float} (hs : s.strategy ≠ .aliasBuckets)
    (hfinite : s.total.isFinite = true) : s.Ascends := by
  obtain ⟨find, hselect, hfind⟩ := exists_search hs
  by_cases hpositive : 0 < s.total
  · have hfound : ∀ draw : Float, draw.isNaN = false →
        s.select? draw = some (find (Scalar.clamp 0 1 draw * s.total)) := by
      intro draw hdraw
      rw [hselect, target?_eq hdraw, if_pos hpositive, Option.map_some]
    refine ⟨fun first second hle => ?_, fun first second index index' hle hfirst hsecond => ?_⟩
    · obtain ⟨hfirst, hsecond⟩ := isNaN_of_le hle
      rw [hfound first hfirst, hfound second hsecond, Option.isSome_some, Option.isSome_some]
    · obtain ⟨hfirstNaN, hsecondNaN⟩ := isNaN_of_le hle
      rw [hfound first hfirstNaN, Option.some.injEq] at hfirst
      rw [hfound second hsecondNaN, Option.some.injEq] at hsecond
      rw [← hfirst, ← hsecond]
      exact hfind _ _ (Draw.target_le_target hfinite hpositive hle)
  · have hnone : ∀ draw : Float, draw.isNaN = false → s.select? draw = none := by
      intro draw hdraw
      rw [hselect, target?_eq hdraw, if_neg hpositive, Option.map_none]
    refine ⟨fun first second hle => ?_, fun first second index index' hle hfirst _ => ?_⟩
    · obtain ⟨hfirst, hsecond⟩ := isNaN_of_le hle
      rw [hnone first hfirst, hnone second hsecond]
    · rw [hnone first (isNaN_of_le hle).1] at hfirst
      contradiction

/-! ## Every history of updates -/

/-- Whatever has been updated, sums and trees with a finite total ascend. -/
theorem ascends_updateAll {strategy : Strategy} (hstrategy : strategy ≠ .aliasBuckets)
    (weights : List Float) (updates : List (Nat × Float))
    (hfinite : ((build strategy weights).updateAll updates).total.isFinite = true) :
    ((build strategy weights).updateAll updates).Ascends := by
  apply ascends_of_isFinite _ hfinite
  rw [strategy_updateAll, strategy_build]
  exact hstrategy

/-- Rounding has left the sums of this tree out of order, and one of them below zero. -/
theorem ascends_updateAll_disordered :
    let s := (build .fenwick [3, 1e17, 1e17, 1e17]).updateAll [(1, 2), (0, (1 : Float))]
    (List.range 4).map s.sumTo = [1, -2, 1e17, 2e17] ∧ s.total.isFinite = true ∧ s.Ascends ∧
      s.select? 0.5 = some 2 ∧ s.select? 0.75 = some 3 := by
  intro s
  have hsums : (List.range 4).map s.sumTo = [1, -2, 1e17, 2e17] := by decide +kernel
  have hfinite : s.total.isFinite = true := by decide +kernel
  exact ⟨hsums, hfinite, ascends_updateAll (by decide) [3, 1e17, 1e17, 1e17] [(1, 2), (0, 1)] hfinite,
    by decide +kernel, by decide +kernel⟩

/-- Where the total overflows, a draw of zero has no target, and its search runs to the last
index. -/
example :
    let s := build .fenwick [1e308, 1e308, (1 : Float)]
    s.select? 0 = some 2 ∧ s.select? 0.5 = some 1 := by
  decide +kernel

end DropTable.Sampler
