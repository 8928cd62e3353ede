import DropTable.Proofs.Binary64.Scientific
import DropTable.Proofs.Random
import DropTable.Proofs.Sampler.Guarded
import DropTable.Proofs.Sampler.SortedSums
/-!
# Buckets of doubles go to indices with weight

Shares of doubles may not add up, and where the total overflows they may be zero throughout or no
numbers at all.  Even so an index without weight has nothing to give: its share is zero, so that it
is small from the start and never becomes large, and the bucket of a small index goes to a large
one.  What is still open without weight at the end yields to the heaviest index.
-/

namespace DropTable

open Binary64

/-! ## The invariant of the pairing -/

namespace Pairing

/-- A bucket that no coin can turn into an index without weight. -/
structure Gives (weights : List Float) (index : Nat) (bucket : Bucket Float) : Prop where
  other : 0 < weights.getD bucket.other 0
  own : 0 < weights.getD index 0 ∨ bucket.share ≤ 0

/-- Large indices have weight, indices without weight have no share, and closed buckets are given
away. -/
structure Fair (weights : List Float) (p : Pairing Float) : Prop where
  large : ∀ index ∈ p.large, 0 < weights.getD index 0
  share : ∀ index, ¬ 0 < weights.getD index 0 → p.share index ≤ 0
  closed : ∀ index bucket, p.buckets[index]? = some bucket → index ∉ p.opens →
    Gives weights index bucket

variable {weights : List Float}

theorem Fair.step {p q : Pairing Float} {size closed donor : Nat} (hwired : p.Wired size)
    (hcloses : Closes p q closed donor) (h : p.Fair weights) : q.Fair weights := by
  have hdonor := h.large donor hcloses.donor_mem
  refine ⟨?_, ?_, ?_⟩
  · intro index hindex
    have hbefore := hcloses.large index hindex
    by_cases heq : index = donor
    · rw [heq]
      exact hdonor
    · rw [if_neg heq] at hbefore
      exact h.large index hbefore
  · intro index hweight
    have hne : index ≠ donor := fun heq => hweight (heq ▸ hdonor)
    rw [hcloses.share_eq hwired, if_neg hne]
    exact h.share index hweight
  · intro index bucket hbucket hclosed
    rw [hcloses.buckets] at hbucket
    by_cases heq : closed = index
    · have hlt : closed < p.buckets.length := by
        rw [hwired.buckets_length]
        exact hwired.lt_size closed (List.mem_append_left _ hcloses.closed_mem)
      rw [← heq, List.getElem?_set_self hlt, Option.some.injEq] at hbucket
      rw [← heq, ← hbucket]
      by_cases hweight : 0 < weights.getD closed 0
      · exact ⟨hdonor, .inl hweight⟩
      · exact ⟨hdonor, .inr (h.share closed hweight)⟩
    · rw [List.getElem?_set_ne heq] at hbucket
      refine h.closed index bucket hbucket fun hopen => hclosed ?_
      exact (hcloses.mem_opens_iff hwired).2 ⟨hopen, Ne.symm heq⟩

private theorem fair_start {shares : List Float}
    (hshares : ∀ index, ¬ 0 < weights.getD index 0 → shares.getD index 0 ≤ 0) :
    (start shares).Fair weights where
  large := by
    intro index hindex
    by_contra hweight
    have hlarge := (List.mem_filter.1 hindex).2
    have hsmall : shares.getD index 0 < 1 :=
      lt_of_le_of_lt (hshares index hweight) ((reads_zero.lt_iff reads_one).2 one_pos)
    rw [decide_eq_true hsmall] at hlarge
    contradiction
  share := hshares
  closed := by
    intro index bucket hbucket hclosed
    have hlt := (List.getElem?_eq_some_iff.1 hbucket).1
    rw [(wired_start shares).buckets_length] at hlt
    exact absurd ((perm_opens_start shares).mem_iff.2 (List.mem_range.2 hlt)) hclosed

end Pairing

namespace Alias

open Pairing

/-! ## The filled buckets -/

section Filled

variable {weights : List Float} (hweights : ∀ w ∈ weights, Draw.Effective w)
include hweights

private theorem effective_getD (index : Nat) : Draw.Effective (weights.getD index 0) := by
  rw [List.getD_eq_getElem?_getD]
  cases hweight : weights[index]? with
  | none => exact .inl rfl
  | some weight => exact hweights weight (List.mem_of_getElem? hweight)

/-- The best index so far or the one behind it. -/
def heavier (weights : List Float) (best : Nat) (slot : Float × Nat) : Nat :=
  if slot.1 < weights.getD best 0 then best else slot.2

private theorem foldl_heavier_pos {slots : List (Float × Nat)}
    (hslots : ∀ slot ∈ slots, weights[slot.2]? = some slot.1) (best : Nat)
    (hpositive : 0 < weights.getD best 0 ∨ ∃ slot ∈ slots, 0 < slot.1) :
    0 < weights.getD (slots.foldl (heavier weights) best) 0 := by
  induction slots generalizing best with
  | nil => simpa using hpositive
  | cons slot slots ih =>
      obtain ⟨hslot, hrest⟩ := List.forall_mem_cons.1 hslots
      have hweight : weights.getD slot.2 0 = slot.1 := by
        rw [List.getD_eq_getElem?_getD, hslot, Option.getD_some]
      have hnonneg := (hweights slot.1 (List.mem_of_getElem? hslot)).nonneg
      simp only [List.mem_cons, exists_eq_or_imp] at hpositive
      apply ih hrest
      unfold heavier
      by_cases hlt : slot.1 < weights.getD best 0
      · rw [if_pos hlt]
        exact .inl (lt_of_le_of_lt hnonneg hlt)
      · rw [if_neg hlt, hweight]
        rcases hpositive with hbest | hfirst | hmore
        · have hle := le_of_not_lt (isNaN_of_lt hbest).2 (isNaN_of_le hnonneg).2 hlt
          exact .inl (lt_of_lt_of_le hbest hle)
        · exact .inl hfirst
        · exact .inr hmore

private theorem heaviest_pos (hne : ∃ w ∈ weights, w ≠ 0) :
    0 < weights.getD (heaviest weights) 0 := by
  obtain ⟨weight, hmem, hweight⟩ := hne
  obtain ⟨index, hindex⟩ := List.getElem?_of_mem hmem
  have hslots : ∀ slot ∈ weights.zipIdx, weights[slot.2]? = some slot.1 := by
    intro slot hslot
    exact List.mem_zipIdx_iff_getElem?.1 hslot
  apply foldl_heavier_pos hweights hslots 0
  right
  exact ⟨(weight, index), List.mem_zipIdx_iff_getElem?.2 hindex,
    (hweights weight hmem).resolve_left hweight⟩

private theorem share_le_zero (hsize : weights.length ≤ UInt64.size) {total : Float}
    (htotal : 0 < total) (index : Nat) (hweight : ¬ 0 < weights.getD index 0) :
    (weights.map fun w => w * Scalar.ofNat weights.length / total).getD index 0 ≤ 0 := by
  have hsum := reads_value (rounds_ofNat hsize).isFinite
  have hproduct := reads_zero.rounds_mul hsum (by simpa using reads_zero.isDouble.2)
  rw [zero_mul] at hproduct
  have hshare := (hproduct.reads reads_zero.isDouble.1).div_eq_zero htotal
  have hzero := (effective_getD hweights index).eq_zero_iff.2 hweight
  rw [List.getD_eq_getElem?_getD] at hzero ⊢
  rw [List.getElem?_map]
  cases hslot : weights[index]? with
  | none => exact (reads_zero.le_iff reads_zero).2 le_rfl
  | some weight =>
      rw [hslot, Option.getD_some] at hzero
      rw [Option.map_some, Option.getD_some, hzero]
      exact (hshare.le_iff reads_zero).2 le_rfl

omit hweights in
private theorem getElem?_foldl_set {β : Type} (b : β) (indices : List Nat) (bs : List β)
    (index : Nat) :
    (indices.foldl (fun bs index => bs.set index b) bs)[index]? =
      if index ∈ indices then bs[index]?.map fun _ => b else bs[index]? := by
  induction indices generalizing bs with
  | nil => rfl
  | cons first indices ih =>
      rw [List.foldl_cons, ih]
      by_cases heq : first = index
      · rw [heq, List.getElem?_set_self', if_pos List.mem_cons_self]
        cases bs[index]? <;> simp
      · simp only [List.getElem?_set_ne heq, List.mem_cons, Ne.symm heq, false_or]

theorem gives_fillBuckets (hne : ∃ w ∈ weights, w ≠ 0) (hsize : weights.length ≤ UInt64.size)
    {total : Float} (htotal : 0 < total) {index : Nat} {bucket : Bucket Float}
    (hbucket : (fillBuckets weights total)[index]? = some bucket) :
    Gives weights index bucket := by
  let shares := weights.map fun w => w * Scalar.ofNat weights.length / total
  obtain ⟨hwired, hfair, -⟩ := run_induction (motive := Fair weights)
    (fun _ _ _ _ hwired hcloses h => h.step hwired hcloses) (wired_start shares)
    (fair_start (share_le_zero hweights hsize htotal))
  unfold fillBuckets at hbucket
  rw [getElem?_foldl_set] at hbucket
  split at hbucket
  case isTrue =>
    obtain ⟨-, -, rfl⟩ := Option.map_eq_some_iff.1 hbucket
    exact ⟨heaviest_pos hweights hne, .inr ((reads_zero.le_iff reads_zero).2 le_rfl)⟩
  case isFalse hkept =>
    by_cases hopen : index ∈ (start shares).run.opens
    · have hown := hwired.bucket index hopen
      rw [hbucket, Option.some.injEq] at hown
      have hweight : 0 < weights.getD index 0 := by
        rcases List.mem_append.1 hopen with hsmall | hlarge
        · by_contra hnone
          exact hkept (List.mem_filter.2 ⟨hsmall, by simpa using hnone⟩)
        · exact hfair.large index hlarge
      rw [hown]
      exact ⟨hweight, .inl hweight⟩
    · exact hfair.closed index bucket hbucket hopen

end Filled

/-! ## Coins -/

private theorem coin_nonneg {draw : Float} (hdraw : draw.isNaN = false) {size : Nat}
    (hsize : size ≤ UInt64.size) :
    let scaled := Scalar.clamp 0 1 draw * Scalar.ofNat size
    0 ≤ scaled - Scalar.ofNat (min (Scalar.floor scaled) (size - 1)) := by
  intro scaled
  obtain ⟨hlow, hhigh⟩ := Draw.clamp_unit hdraw
  obtain ⟨p, hp, hpnonneg, hpone⟩ := exists_reads_unit hlow hhigh
  have hcount := rounds_ofNat hsize
  have hcountnonneg := hcount.le_of_le 0 reads_zero.isDouble.1 (Nat.cast_nonneg size)
  have hproduct : 0 ≤ p * value (Scalar.ofNat size) := mul_nonneg hpnonneg hcountnonneg
  have hscaled := hp.rounds_mul (reads_value hcount.isFinite) (by
    rw [abs_of_nonneg hproduct]
    exact (mul_le_of_le_one_left hcountnonneg hpone).trans
      (le_of_abs_le (reads_value hcount.isFinite).isDouble.2))
  have hreads : Reads scaled (value scaled) := reads_value hscaled.isFinite
  have hnonneg : 0 ≤ value scaled := hscaled.le_of_le 0 reads_zero.isDouble.1 hproduct
  generalize hbucket : min (Scalar.floor scaled) (size - 1) = bucket
  have hle : (bucket : Rat) ≤ value scaled := by
    have hfloor : bucket ≤ Scalar.floor scaled := hbucket ▸ Nat.min_le_left _ _
    exact le_trans (by exact_mod_cast hfloor) (hreads.floor_le hnonneg)
  have hrounds : Rounds (Scalar.ofNat bucket) bucket := rounds_ofNat (by omega)
  have hbelow := hrounds.ge_of_ge _ hreads.isDouble.1 hle
  have habove := hrounds.le_of_le 0 reads_zero.isDouble.1 (Nat.cast_nonneg bucket)
  have hrange := le_of_abs_le hreads.isDouble.2
  have hcoin := hreads.rounds_sub (reads_value hrounds.isFinite) (by
    rw [abs_of_nonneg (sub_nonneg.2 hbelow)]
    linarith)
  rw [reads_zero.le_iff (reads_value hcoin.isFinite)]
  exact hcoin.le_of_le 0 reads_zero.isDouble.1 (sub_nonneg.2 hbelow)

private theorem toss_weight_pos {a : Alias Float}
    (h : ∀ index bucket, a.buckets[index]? = some bucket → Gives a.weights index bucket)
    {bucket : Nat} (hbucket : bucket < a.buckets.length) {coin : Float} (hcoin : 0 ≤ coin) :
    0 < a.weights.getD (a.toss bucket coin).index 0 ∧
      0 ≤ (a.toss bucket coin).residual ∧ (a.toss bucket coin).residual < 1 := by
  have hgives := h bucket _ (List.getElem?_eq_getElem hbucket)
  unfold toss
  rw [List.getD_eq_getElem _ _ hbucket]
  generalize a.buckets[bucket] = kept at hgives
  simp only
  split
  case isTrue hown =>
    refine ⟨hgives.own.resolve_right fun hnone => ?_, Draw.clampResidual_mem _⟩
    exact not_lt_of_le (le_trans hnone hcoin) hown
  case isFalse =>
    split
    case isTrue => exact ⟨hgives.other, Draw.clampResidual_mem _⟩
    case isFalse =>
      exact ⟨hgives.other, le_refl reads_zero.isNaN_eq, (reads_zero.lt_iff reads_one).2 one_pos⟩

/-! ## Buckets for weights -/

private theorem effective_ofWeights (weights : List Float) :
    ∀ w ∈ (ofWeights weights).weights, Draw.Effective w := by
  intro w hw
  obtain ⟨weight, -, rfl⟩ := List.mem_map.1 hw
  exact Draw.effective_mem weight

theorem total_pos_iff (weights : List Float) :
    0 < (ofWeights weights).total ↔ ∃ w ∈ (ofWeights weights).weights, w ≠ 0 := by
  have hzero : Reads (-0 : Float) 0 := ⟨by decide +kernel, by decide +kernel⟩
  exact Cumulative.sumFrom_pos_iff hzero (effective_ofWeights weights)

private theorem buckets_ofWeights (weights : List Float) :
    (ofWeights weights).buckets = if 0 < (ofWeights weights).total then
      fillBuckets (ofWeights weights).weights (ofWeights weights).total else [] := rfl

theorem answers_iff (weights : List Float) {draw : Float} (hdraw : draw.isNaN = false) :
    (ofWeights weights).answers draw = true ↔ ∃ w ∈ (ofWeights weights).weights, w ≠ 0 := by
  have hanswers : (ofWeights weights).answers draw = !(ofWeights weights).buckets.isEmpty := by
    have hnumber : Scalar.isNaN draw = false := hdraw
    rw [answers, hnumber, Bool.not_false, Bool.and_true]
  rw [hanswers, Bool.not_eq_true', List.isEmpty_eq_false_iff, ← total_pos_iff, buckets_ofWeights]
  by_cases hpositive : 0 < (ofWeights weights).total
  · obtain ⟨w, hw, -⟩ := (total_pos_iff weights).1 hpositive
    obtain ⟨hlength, -⟩ :=
      sized_fillBuckets (ofWeights weights).weights (ofWeights weights).total
    rw [if_pos hpositive, ← List.length_pos_iff, hlength]
    exact iff_of_true (List.length_pos_of_mem hw) hpositive
  · rw [if_neg hpositive]
    exact iff_of_false (fun hne => hne rfl) hpositive

theorem gives_ofWeights {weights : List Float} (hsize : weights.length ≤ UInt64.size)
    {index : Nat} {bucket : Bucket Float}
    (hbucket : (ofWeights weights).buckets[index]? = some bucket) :
    Gives (ofWeights weights).weights index bucket := by
  rw [buckets_ofWeights] at hbucket
  split at hbucket
  case isTrue hpositive =>
    refine gives_fillBuckets (effective_ofWeights weights) ((total_pos_iff weights).1 hpositive) ?_
      hpositive hbucket
    rwa [ofWeights, List.length_map]
  case isFalse => contradiction

/-- An index with weight, and a residual that is a draw below one. -/
def Weighs (a : Alias Float) (pick : Pick Float) : Prop :=
  0 < a.weights.getD pick.index 0 ∧ 0 ≤ pick.residual ∧ pick.residual < 1

theorem pick?_weighs {weights : List Float} (hsize : weights.length ≤ UInt64.size) {draw : Float}
    (hdraw : draw.isNaN = false) {pick : Pick Float}
    (hpick : (ofWeights weights).pick? draw = some pick) : (ofWeights weights).Weighs pick := by
  obtain ⟨hanswers, hpick⟩ := Option.ite_none_right_eq_some.1 hpick
  cases hpick
  have hpos := length_pos_of_answers hanswers
  have hlength := (Sampler.sized_build .aliasBuckets weights).1
  refine toss_weight_pos (fun _ _ => gives_ofWeights hsize) (by omega) (coin_nonneg hdraw ?_)
  refine hlength.trans ?_
  rwa [ofWeights, List.length_map]

theorem pickWith_weighs {weights : List Float} (hsize : weights.length ≤ UInt64.size)
    {draw : Float} (hdraw : draw.isNaN = false) {words : Words} {pick : Pick Float}
    (hpick : ((ofWeights weights).pickWith draw words).1 = some pick) :
    (ofWeights weights).Weighs pick := by
  unfold pickWith at hpick
  split at hpick
  case isFalse => contradiction
  case isTrue hanswers =>
    cases hpick
    exact toss_weight_pos (fun _ _ => gives_ofWeights hsize)
      (Words.below_lt (length_pos_of_answers hanswers) words) (Draw.clamp_unit hdraw).1

end Alias

/-! ## All ways to select -/

namespace Sampler

/-- Nothing is selected where no index has weight, and otherwise an index that has. -/
structure Weighed (s : Sampler Float) (index? : Option Nat) : Prop where
  eq_none_iff : index? = none ↔ ∀ w ∈ s.weights, w = 0
  weight_pos : ∀ index, index? = some index → ∃ weight, s.weight? index = some weight ∧ 0 < weight

/-- A draw selects by weight, alone or with a source of words, and leaves a draw below one. -/
structure Discerns (s : Sampler Float) (draw : Float) (words : Words) : Prop where
  select? : s.Weighed (s.select? draw)
  selectWith : s.Weighed (s.selectWith draw words).1
  pick? : s.Weighed ((s.pick? draw).map Pick.index)
  pickWith : s.Weighed ((s.pickWith draw words).1.map Pick.index)
  residual : ∀ pick, s.pick? draw = some pick → 0 ≤ pick.residual ∧ pick.residual < 1
  residual_with : ∀ pick, (s.pickWith draw words).1 = some pick →
    0 ≤ pick.residual ∧ pick.residual < 1

private theorem weighed_map_index {a : Alias Float} {pick? : Option (Pick Float)}
    (hnone : pick? = none ↔ ∀ w ∈ a.weights, w = 0) (h : ∀ pick, pick? = some pick → a.Weighs pick) :
    (Sampler.aliasBuckets a).Weighed (pick?.map Pick.index) := by
  refine ⟨by rw [Option.map_eq_none_iff, hnone]; rfl, ?_⟩
  intro index hindex
  obtain ⟨pick, hpick, rfl⟩ := Option.map_eq_some_iff.1 hindex
  have hweight := (h pick hpick).1
  rw [List.getD_eq_getElem?_getD] at hweight
  rw [weight?, Alias.weight?]
  cases hslot : a.weights[pick.index]? with
  | none =>
      rw [hslot, Option.getD_none, reads_zero.lt_iff reads_zero] at hweight
      exact absurd hweight (lt_irrefl 0)
  | some weight =>
      rw [hslot, Option.getD_some] at hweight
      exact ⟨weight, rfl, hweight⟩

/-- Whatever the weights are and however their sum rounds or overflows, buckets select by weight.
The weights are no more than an index can count. -/
theorem discerns_build {weights : List Float} (hsize : weights.length ≤ UInt64.size) {draw : Float}
    (hdraw : draw.isNaN = false) (words : Words) :
    let s := build .aliasBuckets weights
    s.weights = weights.map Draw.effective ∧ s.Discerns draw words := by
  intro s
  let a := Alias.ofWeights weights
  have hzeros : (∀ w ∈ a.weights, w = 0) ↔ ¬ a.answers draw = true := by
    rw [Alias.answers_iff weights hdraw]
    simp only [not_exists, not_and, not_not, a]
  have hpick : (Sampler.aliasBuckets a).Weighed ((a.pick? draw).map Pick.index) := by
    refine weighed_map_index ?_ fun _ => Alias.pick?_weighs hsize hdraw
    rw [hzeros, Alias.pick?]
    cases a.answers draw <;> simp
  have hpickWith :
      (Sampler.aliasBuckets a).Weighed ((a.pickWith draw words).1.map Pick.index) := by
    refine weighed_map_index ?_ fun _ => Alias.pickWith_weighs hsize hdraw
    rw [hzeros, Alias.pickWith]
    cases a.answers draw <;> simp
  exact ⟨rfl, hpick, hpickWith, hpick, hpickWith,
    fun _ h => (Alias.pick?_weighs hsize hdraw h).2,
    fun _ h => (Alias.pickWith_weighs hsize hdraw h).2⟩

/-- The weights add up to an infinity.  One share is zero, and the others are no numbers. -/
theorem discerns_build_overflow :
    let s := build .aliasBuckets ([0, 1e308, 1e308] : List Float)
    s.Discerns 0 (Words.ofList []) ∧ s.select? 0 ≠ none := by
  intro s
  have hdiscerns : s.Discerns 0 (Words.ofList []) :=
    (discerns_build (by decide) (by decide +kernel) _).2
  refine ⟨hdiscerns, fun hnone => ?_⟩
  have hweights : ¬ ∀ w ∈ s.weights, w = 0 := by decide +kernel
  exact hweights (hdiscerns.select?.eq_none_iff.1 hnone)

end Sampler

end DropTable
