import Mathlib.Tactic.FieldSimp
import DropTable.Numeral.Rational
import DropTable.Proofs.Sampler.Answers
import DropTable.Proofs.Table.Drops
import DropTable.Proofs.Table.Samplers
/-!
# A tree drops what its flattening selects

Over exact rationals, a tree of searching samplers can be replaced by one list of weights: the table
that an entry carries is written out in its place, with its leaves scaled to the weight of the
entry.  Handing the residual of a draw down the tree finds the leaf whose piece of the list is the
first to reach the draw's target, as long as no residual has to be kept below one.
-/

namespace DropTable

/-- An entry at which a drop can end, with its weight in the flattened tree, and the shares of the
entries on the way to it in the totals of their tables, from the outermost on. -/
structure Leaf (α : Type) where
  entry : Entry α
  weight : α
  shares : List α

namespace Table

section Leaves

variable {α : Type} [Scalar α]

def share (t : Table α) (e : Entry α) : α :=
  Draw.effective e.weight / t.total

/-- The leaf that a plain entry is. -/
def leaf (t : Table α) (e : Entry α) : Leaf α :=
  ⟨e, Draw.effective e.weight, [t.share e]⟩

/-- A leaf of a table seen from the table around it, whose entry carries the inner one. -/
def lift (t : Table α) (e : Entry α) (inner : Table α) (l : Leaf α) : Leaf α :=
  ⟨l.entry, Draw.effective e.weight * l.weight / inner.total, t.share e :: l.shares⟩

/-- The leaves of a tree, with nested tables in the place of the entries that carry them. -/
def leaves (t : Table α) : List (Leaf α) :=
  t.entries.attach.flatMap fun ⟨e, _⟩ =>
    match _h : e.nested with
    | none => [t.leaf e]
    | some inner => inner.leaves.map (t.lift e inner)
termination_by sizeOf t
decreasing_by exact sizeOf_nested_lt ‹_› ‹_›

/-- The leaves in the place of one entry. -/
def leavesOf (t : Table α) (e : Entry α) : List (Leaf α) :=
  match e.nested with
  | none => [t.leaf e]
  | some inner => inner.leaves.map (t.lift e inner)

private theorem leaves_eq (t : Table α) : t.leaves = t.entries.flatMap t.leavesOf := by
  have hentries : ∀ f : { e // e ∈ t.entries } → List (Leaf α), (∀ e, f e = t.leavesOf e.val) →
      t.entries.attach.flatMap f = t.entries.flatMap t.leavesOf := by
    intro f hf
    rw [funext hf, List.flatMap_def, List.flatMap_def, List.attach_map_val]
  rw [leaves.eq_def, hentries]
  rintro ⟨⟨id, program, weight, nested⟩, he⟩
  cases nested <;> rfl

end Leaves

/-- How far into the piece of an index the target of a draw lies, as a part of the piece. -/
def depth (t : Table Rat) (draw : Rat) (index : Nat) : Rat :=
  (draw * t.total - prefixSum t.pieces index) / t.pieces.getD index 0

/-- The renormalised residuals that a drop hands down on its way. -/
inductive Meets : Table Rat → Rat → Rat → Prop
  | enter {t : Table Rat} {draw : Rat} {pick : Pick Rat} {e : Entry Rat} {inner : Table Rat}
      (hpick : t.pick? draw = some pick) (he : t.entries[pick.index]? = some e)
      (hinner : t.inner? e = some inner) : Meets t draw (t.depth draw pick.index)
  | descend {t : Table Rat} {draw : Rat} {pick : Pick Rat} {e : Entry Rat} {inner : Table Rat}
      {residual : Rat} (hpick : t.pick? draw = some pick) (he : t.entries[pick.index]? = some e)
      (hinner : t.inner? e = some inner) (hmeets : Meets inner pick.residual residual) :
      Meets t draw residual

/-- A level that searches a positive total, and whose drops go on in nested tables. -/
structure Searching (t : Table Rat) : Prop where
  searches : t.sampler.Searches t.pieces
  nested : t.config.nested = true
  positive : 0 < t.total

/-- The list of leaf weights stands for the tree: it has the same total, every leaf has the product
of the shares on the way to it, and a drop that is not kept below one on its way ends at the leaf
whose piece is the first to reach the target. -/
structure Flattened (t : Table Rat) : Prop where
  nonneg : ∀ w ∈ t.leaves.map (·.weight), 0 ≤ w
  total : (t.leaves.map (·.weight)).sum = t.total
  shares : ∀ l ∈ t.leaves, l.weight / t.total = l.shares.prod
  drop : ∀ draw, 0 ≤ draw → draw ≤ 1 →
    (∀ residual, t.Meets draw residual → residual ≤ Scalar.lastDraw) →
    ∃ index l, t.leaves[index]? = some l ∧
      FirstToReach (t.leaves.map (·.weight)) (draw * t.total) index ∧ t.drop draw = l.entry

private theorem getD_pieces {t : Table Rat} {index : Nat} {e : Entry Rat}
    (he : t.entries[index]? = some e) : t.pieces.getD index 0 = Draw.effective e.weight := by
  simp [pieces, he]

/-! ## One level -/

namespace Searching

variable {t : Table Rat}

theorem total_eq (h : t.Searching) : t.total = t.pieces.sum := h.searches.total

private theorem exists_pick (h : t.Searching) {draw : Rat} (hlow : 0 ≤ draw) (hhigh : draw ≤ 1) :
    ∃ index e, t.entries[index]? = some e ∧ FirstToReach t.pieces (draw * t.total) index ∧
      t.pick? draw = some ⟨index, min (t.depth draw index) Scalar.lastDraw⟩ := by
  have hsum : 0 < t.pieces.sum := h.total_eq ▸ h.positive
  obtain ⟨index, hselect⟩ : ∃ index, t.sampler.select? draw = some index := by
    rw [← Option.ne_none_iff_exists', Ne, h.searches.select?_eq_none_iff]
    exact ne_of_gt hsum
  obtain ⟨-, hfirst⟩ := (h.searches.select?_eq_some_iff_of_mem hlow hhigh).1 hselect
  have hindex : index < t.entries.length := by simpa [pieces] using hfirst.lt_length
  have he := List.getElem?_eq_getElem hindex
  refine ⟨index, t.entries[index], he, h.total_eq ▸ hfirst, ?_⟩
  rw [pick?, if_pos h.nested, h.searches.pick?_eq hlow hhigh, hselect, Option.map_some, depth,
    h.total_eq, getD_pieces he]
  -- A piece without length is reached at its start, and leaves nothing of the draw.
  rcases (Draw.effective_nonneg t.entries[index].weight).eq_or_lt with hzero | hpositive
  · have hlast : (0 : Rat) ≤ Scalar.lastDraw := by decide +kernel
    rw [← hzero, if_neg (lt_irrefl 0), div_zero, min_eq_left hlast]
  · rw [if_pos hpositive]

private theorem weight_mul_depth (h : t.Searching) {draw : Rat} (hlow : 0 ≤ draw) {index : Nat}
    {e : Entry Rat} (he : t.entries[index]? = some e)
    (hfirst : FirstToReach t.pieces (draw * t.total) index) :
    Draw.effective e.weight * t.depth draw index = draw * t.total - prefixSum t.pieces index := by
  rw [depth, getD_pieces he]
  rcases (Draw.effective_nonneg e.weight).eq_or_lt with hzero | hpositive
  · have hstart := hfirst.start_le (mul_nonneg hlow h.positive.le)
    have hreaches := hfirst.reaches
    rw [prefixSum_succ hfirst.lt_length, ← List.getD_eq_getElem _ 0, getD_pieces he] at hreaches
    rw [← hzero]
    linarith
  · rw [mul_div_cancel₀ _ (ne_of_gt hpositive)]

private theorem depth_nonneg (h : t.Searching) {draw : Rat} (hlow : 0 ≤ draw) {index : Nat}
    {e : Entry Rat}
    (he : t.entries[index]? = some e) (hfirst : FirstToReach t.pieces (draw * t.total) index) :
    0 ≤ t.depth draw index := by
  have hstart := hfirst.start_le (mul_nonneg hlow h.positive.le)
  rw [depth, getD_pieces he]
  exact div_nonneg (by linarith) (Draw.effective_nonneg e.weight)

end Searching

/-! ## The leaves of one entry -/

/-- What is known of the tables that the entries of a level carry. -/
def Nested (t : Table Rat) : Prop :=
  ∀ e ∈ t.entries, ∀ inner, e.nested = some inner → inner.Searching ∧ inner.Flattened

private theorem weight_lift (t : Table Rat) (e : Entry Rat) (inner : Table Rat)
    (leaves : List (Leaf Rat)) :
    (leaves.map (t.lift e inner)).map (·.weight) =
      (leaves.map (·.weight)).map (Draw.effective e.weight / inner.total * ·) := by
  rw [List.map_map, List.map_map]
  refine List.map_congr_left fun l _ => ?_
  simp only [Function.comp_apply, lift]
  ring

namespace Nested

variable {t : Table Rat} {e : Entry Rat}

private theorem leavesOf_cases (h : t.Nested) (he : e ∈ t.entries) :
    (e.nested = none ∧ t.leavesOf e = [t.leaf e]) ∨
      ∃ inner, e.nested = some inner ∧ t.leavesOf e = inner.leaves.map (t.lift e inner) ∧
        inner.Searching ∧ inner.Flattened := by
  unfold leavesOf
  cases hinner : e.nested with
  | none => exact .inl ⟨rfl, rfl⟩
  | some inner => exact .inr ⟨inner, rfl, rfl, h e he inner hinner⟩

private theorem nonneg_leavesOf (h : t.Nested) (he : e ∈ t.entries) :
    ∀ w ∈ (t.leavesOf e).map (·.weight), 0 ≤ w := by
  obtain ⟨-, hleaves⟩ | ⟨inner, -, hleaves, hsearching, hflat⟩ := h.leavesOf_cases he
  · rw [hleaves]
    simpa [leaf] using Draw.effective_nonneg e.weight
  · rw [hleaves, weight_lift]
    intro w hw
    obtain ⟨v, hv, rfl⟩ := List.mem_map.1 hw
    have hfactor := div_nonneg (Draw.effective_nonneg e.weight) hsearching.positive.le
    exact mul_nonneg hfactor (hflat.nonneg v hv)

private theorem sum_leavesOf (h : t.Nested) (he : e ∈ t.entries) :
    ((t.leavesOf e).map (·.weight)).sum = Draw.effective e.weight := by
  obtain ⟨-, hleaves⟩ | ⟨inner, -, hleaves, hsearching, hflat⟩ := h.leavesOf_cases he
  · rw [hleaves]
    simp [leaf]
  · rw [hleaves, weight_lift, List.sum_map_mul_left, List.map_id', hflat.total,
      div_mul_cancel₀ _ (ne_of_gt hsearching.positive)]

private theorem shares_leavesOf (h : t.Nested) (he : e ∈ t.entries) :
    ∀ l ∈ t.leavesOf e, l.weight / t.total = l.shares.prod := by
  obtain ⟨-, hleaves⟩ | ⟨inner, -, hleaves, hsearching, hflat⟩ := h.leavesOf_cases he
  · rw [hleaves]
    simp [leaf, share]
  · rw [hleaves]
    intro lifted hlifted
    obtain ⟨l, hl, rfl⟩ := List.mem_map.1 hlifted
    rw [lift, List.prod_cons, ← hflat.shares l hl, share]
    ring

private theorem sum_flatMap (h : t.Nested) {entries : List (Entry Rat)}
    (hentries : entries ⊆ t.entries) :
    ((entries.flatMap t.leavesOf).map (·.weight)).sum =
      (entries.map fun e => Draw.effective e.weight).sum := by
  rw [List.map_flatMap, List.flatMap_def, List.sum_flatten, List.map_map]
  congr 1
  exact List.map_congr_left fun e he => h.sum_leavesOf (hentries he)

private theorem nonneg_flatMap (h : t.Nested) {entries : List (Entry Rat)}
    (hentries : entries ⊆ t.entries) :
    ∀ w ∈ (entries.flatMap t.leavesOf).map (·.weight), 0 ≤ w := by
  rw [List.map_flatMap]
  intro w hw
  obtain ⟨e, he, hw⟩ := List.mem_flatMap.1 hw
  exact h.nonneg_leavesOf (hentries he) w hw

private theorem drop_leavesOf (h : t.Nested) (ht : t.Searching) {draw : Rat} (hlow : 0 ≤ draw)
    {index : Nat}
    (he : t.entries[index]? = some e) (hfirst : FirstToReach t.pieces (draw * t.total) index)
    (hpick : t.pick? draw = some ⟨index, min (t.depth draw index) Scalar.lastDraw⟩)
    (hresiduals : ∀ residual, t.Meets draw residual → residual ≤ Scalar.lastDraw) :
    ∃ place l, (t.leavesOf e)[place]? = some l ∧
      FirstToReach ((t.leavesOf e).map (·.weight))
        (draw * t.total - prefixSum t.pieces index) place ∧
      t.drop draw = l.entry := by
  have hmem := List.mem_of_getElem? he
  have htarget := ht.weight_mul_depth hlow he hfirst
  obtain ⟨hnone, hleaves⟩ | ⟨inner, hinner, hleaves, hsearching, hflat⟩ := h.leavesOf_cases hmem
  · have hends : t.inner? e = none := by rw [inner?, if_pos ht.nested, hnone]
    have hreaches := hfirst.reaches
    rw [prefixSum_succ hfirst.lt_length, ← List.getD_eq_getElem _ 0, getD_pieces he] at hreaches
    refine ⟨0, t.leaf e, by simp [hleaves], ?_, ?_⟩
    · rw [hleaves]
      exact firstToReach_singleton (sub_le_iff_le_add'.2 hreaches)
    · rw [drop_of_pick hpick he, hends]
      rfl
  · have hgoes : t.inner? e = some inner := by rw [inner?, if_pos ht.nested, hinner]
    have hdepth := hresiduals _ (.enter hpick he hgoes)
    rw [min_eq_left hdepth] at hpick
    have hlast : (Scalar.lastDraw : Rat) ≤ 1 := by decide +kernel
    obtain ⟨place, l, hl, hreach, hdrop⟩ := hflat.drop (t.depth draw index)
      (ht.depth_nonneg hlow he hfirst) (hdepth.trans hlast)
      fun residual hmeets => hresiduals residual (.descend hpick he hgoes hmeets)
    refine ⟨place, t.lift e inner l, by simp [hleaves, hl], ?_, ?_⟩
    · have hne := ne_of_gt hsearching.positive
      have hscaled := hreach.scale hflat.nonneg
        (div_nonneg (Draw.effective_nonneg e.weight) hsearching.positive.le) ?_
      · rw [hleaves, weight_lift, ← htarget]
        convert hscaled using 1
        field_simp
      · -- A weight of zero leaves nothing of the draw.
        intro hzero
        rw [div_eq_zero_iff, or_iff_left hne] at hzero
        rw [depth, getD_pieces he, hzero, div_zero, zero_mul]
    · rw [drop_of_pick hpick he, hgoes]
      exact hdrop

end Nested

/-! ## Whole trees -/

theorem Searching.flattened {t : Table Rat} (ht : t.Searching) (h : t.Nested) : t.Flattened where
  nonneg := by
    rw [leaves_eq]
    exact h.nonneg_flatMap (List.Subset.refl _)
  total := by
    rw [leaves_eq, h.sum_flatMap (List.Subset.refl _), ht.total_eq]
    rfl
  shares := by
    intro l hl
    rw [leaves_eq] at hl
    obtain ⟨e, he, hl⟩ := List.mem_flatMap.1 hl
    exact h.shares_leavesOf he l hl
  drop := by
    intro draw hlow hhigh hresiduals
    obtain ⟨index, e, he, hfirst, hpick⟩ := ht.exists_pick hlow hhigh
    obtain ⟨place, l, hl, hreach, hdrop⟩ := h.drop_leavesOf ht hlow he hfirst hpick hresiduals
    let front := (t.entries.take index).flatMap t.leavesOf
    let back := (t.entries.drop (index + 1)).flatMap t.leavesOf
    have hleaves : t.leaves = front ++ (t.leavesOf e ++ back) := by
      obtain ⟨hindex, rfl⟩ := List.getElem?_eq_some_iff.1 he
      rw [leaves_eq, ← List.flatMap_cons, ← List.drop_eq_getElem_cons hindex, ← List.flatMap_append,
        List.take_append_drop]
    have hfront : (front.map (·.weight)).sum = prefixSum t.pieces index := by
      rw [h.sum_flatMap (List.take_subset _ _), prefixSum, pieces, List.map_take]
    refine ⟨front.length + place, l, ?_, ?_, hdrop⟩
    · rw [hleaves, List.getElem?_append_right (Nat.le_add_right _ _), Nat.add_sub_cancel_left]
      rw [List.getElem?_append_left (List.getElem?_eq_some_iff.1 hl).1, hl]
    · rw [hleaves, List.map_append, List.map_append, ← List.length_map (·.weight)]
      rw [← hfront] at hreach
      refine FirstToReach.prepend (h.nonneg_flatMap (List.take_subset _ _)) ?_ (hreach.append _)
      intro hne
      rw [hfront]
      cases index with
      | zero => exact absurd rfl hne
      | succ index => exact hfirst.first index (Nat.lt_succ_self index)

theorem flattened_of_searching {t : Table Rat} (h : t.Everywhere Searching) : t.Flattened := by
  induction t using nested_induction with
  | step t ih =>
      obtain ⟨ht, hnested⟩ := everywhere_iff.1 h
      apply ht.flattened
      intro e he inner hinner
      have hinner' := hnested e he inner hinner
      exact ⟨(everywhere_iff.1 hinner').1, ih e he inner hinner hinner'⟩

theorem Flattened.interval {t : Table Rat} (h : t.Flattened) (hpositive : 0 < t.total)
    {index : Nat} {l : Leaf Rat} (hl : t.leaves[index]? = some l) :
    let weights := t.leaves.map (·.weight)
    let start := prefixSum weights index / t.total
    let stop := prefixSum weights (index + 1) / t.total
    stop - start = l.shares.prod ∧ ∀ draw, 0 ≤ draw →
      (FirstToReach weights (draw * t.total) index ↔
        (index = 0 ∨ start < draw) ∧ draw ≤ stop) := by
  intro weights start stop
  obtain ⟨hindex, rfl⟩ := List.getElem?_eq_some_iff.1 hl
  have hlength : index < weights.length := by simpa [weights] using hindex
  refine ⟨?_, ?_⟩
  · rw [← h.shares _ (List.getElem_mem hindex)]
    simp only [start, stop, prefixSum_succ hlength]
    simp only [weights, List.getElem_map]
    ring
  · intro draw hlow
    rw [firstToReach_iff h.nonneg hlength, div_lt_iff₀ hpositive, le_div_iff₀ hpositive]

end Table

namespace Plan

theorem searches_of_build [Numeral Rat] {p : Plan Rat} {t : Table Rat} (h : p.build = .ok t)
    (hstrategy : t.config.strategy ≠ .aliasBuckets) : t.sampler.Searches t.pieces := by
  let K : Sampler Rat → Prop := fun s => s.strategy ≠ .aliasBuckets → s.Kept
  have hkept : K t.sampler := by
    apply sampler_of_build (K := K) _ _ h
    · intro strategy weights hs
      exact Sampler.kept_build (by simpa using hs) weights
    · intro s index weight hs hupdated
      rw [Sampler.strategy_update] at hupdated
      exact (hs hupdated).update index weight
  have hslotted := (builds_of_build h).coherent.slotted
  have hweights : t.sampler.weights = t.pieces := hslotted.weights hstrategy
  rw [← hweights]
  refine (hkept (hslotted.strategy ▸ hstrategy)).searches ?_
  rw [hweights]
  intro w hw
  obtain ⟨e, -, rfl⟩ := List.mem_map.1 hw
  exact Draw.effective_nonneg e.weight

/-- Over exact rationals, a tree that searches a positive total at every level drops what the search
of its flattening selects, and every leaf owns an interval of draws as long as the product of the
shares on the way to it. -/
theorem flattened_of_build [Numeral Rat] {p : Plan Rat} {t : Table Rat} (h : p.build = .ok t)
    (hlevels : t.Everywhere fun level => level.config.strategy ≠ .aliasBuckets ∧
      level.config.nested = true ∧ 0 < level.total) :
    t.Flattened ∧ ∀ index l, t.leaves[index]? = some l →
      let weights := t.leaves.map (·.weight)
      let start := prefixSum weights index / t.total
      let stop := prefixSum weights (index + 1) / t.total
      stop - start = l.shares.prod ∧ ∀ draw, 0 ≤ draw →
        (FirstToReach weights (draw * t.total) index ↔
          (index = 0 ∨ start < draw) ∧ draw ≤ stop) := by
  have hsearching : t.Everywhere Table.Searching := by
    intro path level hlevel
    obtain ⟨hstrategy, hnested, hpositive⟩ := hlevels path level hlevel
    obtain ⟨q, -, hbuild⟩ := build_of_level h hlevel
    exact ⟨searches_of_build hbuild hstrategy, hnested, hpositive⟩
  have hflat := Table.flattened_of_searching hsearching
  exact ⟨hflat, fun index l hl => hflat.interval (hlevels [] t rfl).2.2 hl⟩

/-- Half of the draws are for the coin, and a ruby takes all of the others. -/
theorem flattened_of_build_pouch :
    let p : Plan Rat := pouch .fenwick .cumulative []
    ∃ t, p.build = .ok t ∧ t.Flattened ∧ t.leaves.map (·.weight) = [1, 0, 1] := by
  intro p
  have hleaves : p.build.map (fun t => t.leaves.map (·.weight)) = .ok [1, 0, 1] := by
    decide +kernel
  obtain ⟨t, ht, hweights⟩ := exists_of_map_eq_ok hleaves
  have hchecked : p.build.map (fun t => decide (t.Everywhere fun level =>
      level.config.strategy ≠ .aliasBuckets ∧ level.config.nested = true ∧ 0 < level.total)) =
      .ok true := by
    decide +kernel
  rw [ht] at hchecked
  have hlevels := of_decide_eq_true (Except.ok.inj hchecked)
  exact ⟨t, ht, (flattened_of_build ht hlevels).1, hweights⟩

end Plan

end DropTable
