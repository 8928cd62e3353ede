import DropTable.Proofs.Sampler.DoubleDraws
import DropTable.Proofs.Sampler.Grid
import DropTable.Proofs.Sampler.Selection
/-!
# Trees of doubles without rounding

Where all weights are whole multiples of one power of two and there are few enough of these in all,
no sum of weights needs rounding.  The nodes of a binary indexed tree of doubles then hold what they
hold over exact rationals, through every update, and the search finds the first index to reach.
-/

namespace DropTable

open Binary64

namespace Draw

private theorem effective_of_nonneg {weight : Rat} (h : 0 ≤ weight) :
    effective weight = weight := by
  unfold effective
  rcases h.eq_or_lt with hzero | hpositive
  · simp [← hzero]
  · simp [hpositive, Scalar.isFinite]

end Draw

namespace Fenwick

/-- The tree of the numbers that the doubles of a tree stand for. -/
def mirror (f : Fenwick Float) : Fenwick Rat :=
  ⟨f.weights.map value, f.nodes.map value⟩

/-- A tree of doubles in which nothing has been rounded. -/
structure Exact (f : Fenwick Float) : Prop where
  weights : ∀ w ∈ f.weights, w.isFinite = true
  nodes : ∀ x ∈ f.nodes, x.isFinite = true
  tallied : f.mirror.Tallied

private theorem mirror_zeros (size : Nat) : (zeros size : Fenwick Float).mirror = zeros size := by
  rw [mirror, zeros, List.map_replicate, reads_zero.value_eq]
  rfl

private theorem exact_zeros (size : Nat) : (zeros size : Fenwick Float).Exact := by
  have hzero : ∀ x ∈ List.replicate size (0 : Float), x.isFinite = true := by
    intro x hx
    rw [List.eq_of_mem_replicate hx]
    exact reads_zero.isFinite
  exact ⟨hzero, hzero, mirror_zeros size ▸ tallied_zeros size⟩

private theorem forall₂_iff_getElem? {β γ : Type} {R : β → γ → Prop} {xs : List β} {ys : List γ} :
    List.Forall₂ R xs ys ↔ ∀ index : Nat, Option.Rel R xs[index]? ys[index]? := by
  constructor
  · intro h
    induction h with
    | nil => exact fun _ => .none
    | cons hhead _ ih =>
        intro index
        cases index with
        | zero => exact .some hhead
        | succ index => exact ih index
  · intro h
    induction xs generalizing ys with
    | nil =>
        cases ys with
        | nil => exact .nil
        | cons y ys => nomatch h 0
    | cons x xs ih =>
        cases ys with
        | nil => nomatch h 0
        | cons y ys =>
            cases h 0 with
            | some hhead => exact .cons hhead (ih fun index => h (index + 1))

private theorem reads_add {nodes : List Float} {exact : List Rat} {delta : Float} {difference : Rat}
    (hnodes : List.Forall₂ Reads nodes exact) (hdelta : Reads delta difference) {index : Nat}
    (h : ∀ q ∈ add exact index difference, IsDouble q) :
    List.Forall₂ Reads (add nodes index delta) (add exact index difference) := by
  rw [forall₂_iff_getElem?]
  intro position
  have hnode := forall₂_iff_getElem?.1 hnodes position
  have hfloat := getElem?_add nodes index delta (Nat.succ_pos position)
  have hexact := getElem?_add exact index difference (Nat.succ_pos position)
  rw [Nat.succ_sub_one] at hfloat hexact
  have hmem : ∀ q, (add exact index difference)[position]? = some q → IsDouble q :=
    fun q hq => h q (List.mem_of_getElem? hq)
  rw [hexact] at hmem
  rw [hfloat, hexact]
  split
  case isFalse => exact hnode
  case isTrue hblock =>
    rw [if_pos hblock] at hmem
    generalize nodes[position]? = node at hnode ⊢
    generalize exact[position]? = sum at hnode hmem ⊢
    cases hnode with
    | none => exact .none
    | some hread => exact .some (hread.add hdelta (hmem _ rfl))

private theorem reads_iff {xs : List Float} {qs : List Rat} :
    List.Forall₂ Reads xs qs ↔ (∀ x ∈ xs, x.isFinite = true) ∧ xs.map value = qs := by
  constructor
  · intro h
    induction h with
    | nil => simp
    | cons hhead _ ih =>
        exact ⟨List.forall_mem_cons.2 ⟨hhead.isFinite, ih.1⟩, by
          rw [List.map_cons, hhead.value_eq, ih.2]⟩
  · rintro ⟨hfinite, rfl⟩
    rw [List.forall₂_map_right_iff, List.forall₂_same]
    exact fun x hx => reads_value (hfinite x hx)

private theorem Tallied.isDouble_node {f : Fenwick Rat} (h : f.Tallied) {unit : Int}
    (hunit : Countable unit) (hgrid : OnGrid unit 53 f.weights) :
    ∀ q ∈ f.nodes, IsDouble q := by
  intro q hq
  obtain ⟨position, hposition⟩ := List.getElem?_of_mem hq
  have hlt := (List.getElem?_eq_some_iff.1 hposition).1
  have hnode := h.node (position + 1) (Nat.succ_pos position) (by rw [← h.length]; omega)
  rw [Nat.add_sub_cancel, hposition, Option.some.injEq] at hnode
  rw [hnode]
  exact hgrid.isDouble hunit (Nat.sub_le _ _)

theorem update_eq {α : Type} [Scalar α] {f : Fenwick α} {index : Nat} {current : α}
    (h : f.weights[index]? = some current) (weight : α) :
    f.update index weight = ⟨f.weights.set index (Draw.effective weight),
      add f.nodes index (Draw.effective weight - current)⟩ := by
  rw [update, h]

private theorem update_of_none {α : Type} [Scalar α] {f : Fenwick α} {index : Nat}
    (h : f.weights[index]? = none) (weight : α) : f.update index weight = f := by
  rw [update, h]

theorem Exact.update {f : Fenwick Float} (h : f.Exact) {unit : Int} (hunit : Countable unit)
    (hgrid : OnGrid unit 53 f.mirror.weights) {index : Nat} {weight : Float}
    (hafter : OnGrid unit 53 (f.mirror.weights.set index (value (Draw.effective weight)))) :
    (f.update index weight).Exact := by
  cases hcurrent : f.weights[index]? with
  | none => rwa [update_of_none hcurrent]
  | some current =>
      let new := Draw.effective weight
      have hmirror : f.mirror.weights[index]? = some (value current) := by
        simp [mirror, hcurrent]
      have htallied := h.tallied.update index (value new)
      rw [update_eq hmirror, Draw.effective_of_nonneg (Draw.value_effective_nonneg weight)]
        at htallied
      have hdifference : IsDouble (value new - value current) := by
        have hlt : index < f.mirror.weights.length := (List.getElem?_eq_some_iff.1 hmirror).1
        exact hafter.isDouble_sub hunit hgrid (List.mem_set hlt _) (List.mem_of_getElem? hmirror)
      have hdelta : Reads (new - current) (value new - value current) :=
        (reads_value (Draw.isFinite_effective weight)).sub
          (reads_value (h.weights current (List.mem_of_getElem? hcurrent))) hdifference
      have hnodes := reads_add (reads_iff.2 ⟨h.nodes, rfl⟩) hdelta
        (htallied.isDouble_node hunit hafter)
      obtain ⟨hfinite, hvalues⟩ := reads_iff.1 hnodes
      rw [update_eq hcurrent]
      refine ⟨?_, hfinite, ?_⟩
      · intro w hw
        rcases List.mem_or_eq_of_mem_set hw with hold | rfl
        · exact h.weights w hold
        · exact Draw.isFinite_effective weight
      · rw [mirror, hvalues, List.map_set]
        exact htallied

private theorem weights_mirror_update (f : Fenwick Float) (index : Nat) (weight : Float) :
    (f.update index weight).mirror.weights =
      f.mirror.weights.set index (value (Draw.effective weight)) := by
  rw [mirror, weights_update, List.map_set]
  rfl

theorem Exact.step {f : Fenwick Float} (h : f.Exact) {unit : Int} (hunit : Countable unit)
    {old new : List Rat} (hold : OnGrid unit 52 old) (hnew : OnGrid unit 52 new)
    (hmixed : Between old new f.mirror.weights) {index : Nat} {weight : Float}
    (hplace : new[index]? = some (value (Draw.effective weight))) :
    (f.update index weight).Exact ∧ Between old new (f.update index weight).mirror.weights := by
  have hafter := hmixed.set hplace
  refine ⟨h.update hunit (hmixed.onGrid hold hnew) (hafter.onGrid hold hnew), ?_⟩
  rw [weights_mirror_update]
  exact hafter

private theorem Exact.foldl_update {unit : Int} (hunit : Countable unit) {old new : List Rat}
    (hold : OnGrid unit 52 old) (hnew : OnGrid unit 52 new) (slots : List (Float × Nat))
    {f : Fenwick Float} (h : f.Exact) (hmixed : Between old new f.mirror.weights)
    (hslots : ∀ slot ∈ slots, new[slot.2]? = some (value (Draw.effective slot.1))) :
    (slots.foldl (fun f (weight, index) => f.update index weight) f).Exact := by
  induction slots generalizing f with
  | nil => exact h
  | cons slot slots ih =>
      obtain ⟨hslot, hrest⟩ := List.forall_mem_cons.1 hslots
      obtain ⟨hnext, hbetween⟩ := h.step hunit hold hnew hmixed hslot
      exact ih hnext hbetween hrest

theorem exact_ofWeights {unit : Int} (hunit : Countable unit) {weights : List Float}
    (hgrid : OnGrid unit 52 (weights.map fun w => value (Draw.effective w))) :
    (ofWeights weights).Exact := by
  have hzeros : OnGrid unit 52 (List.replicate weights.length (0 : Rat)) := by
    refine ⟨fun w hw => ⟨0, ?_⟩, ?_⟩
    · rw [List.eq_of_mem_replicate hw]
      simp
    · rw [List.sum_replicate, nsmul_zero]
      exact mul_nonneg (by norm_num) (zpow_pos two_pos unit).le
  -- The weights are put in the place of zeros, one after the other.
  refine Exact.foldl_update hunit hzeros hgrid weights.zipIdx (exact_zeros _) ?_ ?_
  · rw [mirror_zeros]
    exact .start (by simp)
  · intro slot hslot
    simp [List.mem_zipIdx_iff_getElem?.1 hslot]

/-! ## Sums up to a position -/

private theorem Exact.reads_node {f : Fenwick Float} (h : f.Exact) {node : Nat} (hpos : 0 < node)
    (hnode : node ≤ f.mirror.weights.length) :
    Reads (f.nodes.getD (node - 1) 0)
      (prefixSum f.mirror.weights node - prefixSum f.mirror.weights (node - lowBit node)) := by
  have htally := h.tallied.node node hpos hnode
  rw [mirror, List.getElem?_map, Option.map_eq_some_iff] at htally
  obtain ⟨x, hx, hvalue⟩ := htally
  rw [List.getD_eq_getElem?_getD, hx, Option.getD_some]
  exact ⟨h.nodes x (List.mem_of_getElem? hx), hvalue⟩

private theorem Exact.reads_descend {f : Fenwick Float} (h : f.Exact) {unit : Int}
    (hunit : Countable unit)
    (hgrid : OnGrid unit 53 f.mirror.weights) {node last : Nat} (hle : node ≤ last)
    (hlast : last ≤ f.mirror.weights.length) {sum : Float}
    (hsum : Reads sum (prefixSum f.mirror.weights last - prefixSum f.mirror.weights node)) :
    Reads ((descend node).foldl (fun sum node => sum + f.nodes.getD (node - 1) 0) sum)
      (prefixSum f.mirror.weights last) := by
  fun_induction descend node generalizing sum with
  | case1 node hpos ih =>
      have hmore := lowBit_le node
      have hblock := hgrid.isDouble hunit (Nat.le_trans (Nat.sub_le node (lowBit node)) hle)
      have htotal := hsum.add (h.reads_node hpos (hle.trans hlast)) (by
        rwa [sub_add_sub_cancel])
      rw [sub_add_sub_cancel] at htotal
      exact ih (by omega) htotal
  | case2 node hzero =>
      have hnone : node = 0 := by omega
      simpa [hnone] using hsum

private theorem Exact.reads_sumTo {f : Fenwick Float} (h : f.Exact) {unit : Int}
    (hunit : Countable unit) (hgrid : OnGrid unit 53 f.mirror.weights) (index : Nat) :
    Reads (f.sumTo index) (prefixSum f.mirror.weights (index + 1)) := by
  have hlength : f.mirror.weights.length = f.size := List.length_map _
  have htake : prefixSum f.mirror.weights (min (index + 1) f.size) =
      prefixSum f.mirror.weights (index + 1) := by
    rw [prefixSum, ← hlength, ← List.take_take, List.take_length, prefixSum]
  have hstart : Reads 0 (prefixSum f.mirror.weights (min (index + 1) f.size) -
      prefixSum f.mirror.weights (min (index + 1) f.size)) := by
    rw [sub_self]
    exact reads_zero
  rw [← htake]
  exact h.reads_descend hunit hgrid le_rfl (by omega) hstart

theorem Exact.reads_total {f : Fenwick Float} (h : f.Exact) {unit : Int} (hunit : Countable unit)
    (hgrid : OnGrid unit 53 f.mirror.weights) : Reads f.total f.mirror.weights.sum := by
  have hlength : f.mirror.weights.length = f.size := List.length_map _
  unfold total
  by_cases hempty : f.size = 0
  · rw [if_pos hempty, List.length_eq_zero_iff.1 (hlength.trans hempty)]
    exact reads_zero
  · have hlast : f.size - 1 + 1 = f.mirror.weights.length := by omega
    have hsum := h.reads_sumTo hunit hgrid (f.size - 1)
    rw [if_neg hempty]
    rwa [hlast, prefixSum_length] at hsum

/-! ## Selections -/

theorem target_mem {draw total : Float} {d sum : Rat} (hdraw : Reads draw d) (htotal : Reads total sum)
    (hlow : 0 ≤ d) (hhigh : d ≤ 1) (hsum : 0 ≤ sum) :
    Reads (draw * total) (value (draw * total)) ∧ 0 ≤ value (draw * total) ∧
      value (draw * total) ≤ sum := by
  have hnonneg : 0 ≤ d * sum := mul_nonneg hlow hsum
  have hle : d * sum ≤ sum := mul_le_of_le_one_left hsum hhigh
  have hrange : |d * sum| ≤ largest := by
    rw [abs_of_nonneg hnonneg]
    exact hle.trans (le_of_abs_le htotal.isDouble.2)
  have hrounds := hdraw.rounds_mul htotal hrange
  exact ⟨reads_value hrounds.isFinite, hrounds.le_of_le 0 reads_zero.isDouble.1 hnonneg,
    hrounds.ge_of_ge sum htotal.isDouble.1 hle⟩

theorem target?_eq {draw : Float} {d : Rat} (hdraw : Reads draw d) (hlow : 0 ≤ d) (hhigh : d ≤ 1)
    (total : Float) : Draw.target? draw total = if 0 < total then some (draw * total) else none := by
  have hclamp : Scalar.clamp 0 1 draw = draw := by
    have hnotlow : ¬ draw < 0 := by
      rw [hdraw.lt_iff reads_zero]
      exact not_lt.2 hlow
    have hnothigh : ¬ 1 < draw := by
      rw [reads_one.lt_iff hdraw]
      exact not_lt.2 hhigh
    unfold Scalar.clamp
    rw [if_neg hnotlow, if_neg hnothigh]
  have hnumber : Scalar.isNaN draw = false := hdraw.isNaN_eq
  unfold Draw.target?
  rw [hclamp, hnumber]
  simp

theorem size_pos {f : Fenwick Float} (h : 0 < f.total) : 0 < f.size := by
  by_contra hempty
  rw [total, if_pos (Nat.eq_zero_of_not_pos hempty), reads_zero.lt_iff reads_zero] at h
  exact lt_irrefl 0 h

theorem select?_cases (f : Fenwick Float) {draw : Float} {d : Rat} (hdraw : Reads draw d)
    (hlow : 0 ≤ d) (hhigh : d ≤ 1) :
    ¬ 0 < f.total ∧ f.select? draw = none ∨
      0 < f.total ∧ ∃ index < f.size, f.select? draw = some index ∧
        index = search (fun index => draw * f.total ≤ f.sumTo index) 0 (f.size - 1) := by
  rw [Fenwick.select?, target?_eq hdraw hlow hhigh]
  by_cases hpositive : 0 < f.total
  · have hsize := size_pos hpositive
    obtain ⟨-, hlast⟩ := search_mem (fun index => draw * f.total ≤ f.sumTo index)
      (Nat.zero_le (f.size - 1))
    rw [if_pos hpositive, Option.map_some]
    exact .inr ⟨hpositive, _, by omega, rfl, rfl⟩
  · rw [if_neg hpositive]
    exact .inl ⟨hpositive, rfl⟩

theorem Exact.total_pos_iff {f : Fenwick Float} (h : f.Exact) {unit : Int} (hunit : Countable unit)
    (hgrid : OnGrid unit 53 f.mirror.weights) : 0 < f.total ↔ 0 < f.mirror.weights.sum :=
  reads_zero.lt_iff (h.reads_total hunit hgrid)

theorem Exact.firstToReach {f : Fenwick Float} (h : f.Exact) {unit : Int} (hunit : Countable unit)
    (hgrid : OnGrid unit 53 f.mirror.weights) (hpositive : 0 < f.total) {target : Float} {goal : Rat}
    (htarget : Reads target goal) (hle : goal ≤ f.mirror.weights.sum) :
    FirstToReach f.mirror.weights goal
      (search (fun index => target ≤ f.sumTo index) 0 (f.size - 1)) := by
  have hreaches : (fun index => decide (target ≤ f.sumTo index)) = fun index =>
      decide (goal ≤ prefixSum f.mirror.weights (index + 1)) := by
    funext index
    rw [decide_eq_decide]
    exact htarget.le_iff (h.reads_sumTo hunit hgrid index)
  have hsize : f.size = f.mirror.weights.length := (List.length_map _).symm
  rw [hreaches, hsize]
  exact firstToReach_search hgrid.nonneg hle (hsize ▸ size_pos hpositive)

end Fenwick

end DropTable
