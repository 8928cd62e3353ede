import DropTable.Numeral.Binary64
import DropTable.Proofs.Sampler.ExactTree
import DropTable.Proofs.Table.Drops
import DropTable.Proofs.Table.Samplers
/-!
# Drops from a tree of doubles

A binary indexed tree of doubles follows its table through changes of variables as long as nothing
is rounded.  It then drops an entry exactly when some weight counts, and one whose weight counts,
unless the draw is too small to say.  A rounded difference can leave something behind instead that
no weight accounts for.
-/

namespace DropTable

open Binary64

namespace Table

/-- The numbers that the effective weights of the entries stand for. -/
def counted (t : Table Float) : List Rat :=
  t.pieces.map Binary64.value

/-- Whether the sampler is a tree in which nothing has been rounded. -/
def Unrounded (t : Table Float) : Prop :=
  ∃ f, t.sampler = .fenwick f ∧ f.Exact

private theorem Coherent.weights_mirror {t : Table Float} (h : t.Coherent) {f : Fenwick Float}
    (hsampler : t.sampler = .fenwick f) : f.mirror.weights = t.counted := by
  have hstrategy : t.config.strategy = .fenwick := by
    rw [← h.slotted.strategy, hsampler]
    rfl
  have hweights : t.sampler.weights = t.pieces := h.slotted.weights (by rw [hstrategy]; decide)
  rw [counted, ← hweights, hsampler]
  rfl

private theorem Current.unrounded {t : Table Float} (h : t.Current)
    (hstrategy : t.config.strategy = .fenwick)
    {unit : Int} (hunit : Countable unit) (hgrid : OnGrid unit 52 t.counted) : t.Unrounded := by
  rw [Current, hstrategy] at h
  refine ⟨_, h, Fenwick.exact_ofWeights hunit ?_⟩
  rw [counted, pieces, List.map_map] at hgrid
  rwa [List.map_map]

theorem Unrounded.update {t : Table Float} (h : t.Unrounded) (hcoherent : t.Coherent) {unit : Int}
    (hunit : Countable unit) (name : String) (value : Float) (hold : OnGrid unit 52 t.counted)
    (hnew : OnGrid unit 52 (t.update name value).1.counted) :
    (t.update name value).1.Unrounded := by
  let K : Sampler Float → Prop := fun s => ∃ f, s = .fenwick f ∧ f.Exact ∧
    Between t.counted (t.update name value).1.counted f.mirror.weights
  have hkept : K (t.update name value).1.sampler := by
    apply hcoherent.sampler_update (K := K) name value
    · rintro s position e he ⟨f, rfl, hexact, hmixed⟩
      have hplace : (t.update name value).1.counted[position]? =
          some (Binary64.value (Draw.effective e.weight)) := by
        simp [counted, pieces, he]
      obtain ⟨hnext, hbetween⟩ := hexact.step hunit hold hnew hmixed hplace
      exact ⟨_, rfl, hnext, hbetween⟩
    · obtain ⟨f, hf, hexact⟩ := h
      refine ⟨f, hf, hexact, ?_⟩
      rw [hcoherent.weights_mirror hf]
      apply Between.start
      have hframes := congrArg List.length (hcoherent.changed_update name value).entries
      simpa [counted, pieces] using hframes.symm
  obtain ⟨f, hf, hexact, -⟩ := hkept
  exact ⟨f, hf, hexact⟩

/-! ## Drops by weight -/

/-- What a drop of a table without nested tables is to be: an entry if some weight counts, and one
whose weight counts, unless it is the first one for a draw that is too small. -/
structure DropsByWeight (t : Table Float) (draw : Float) : Prop where
  placeholder : t.drop draw = .placeholder ↔ ∀ e ∈ t.entries, Draw.effective e.weight = 0
  entry : t.drop draw ≠ .placeholder → ∃ index e, t.entries[index]? = some e ∧ t.drop draw = e ∧
    (0 < Draw.effective e.weight ∨ index = 0 ∧ ¬ 0 < draw * t.total)

private theorem drop_cases {t : Table Float} (hplain : ∀ e ∈ t.entries, e.nested = none)
    (h : t.Slotted) {f : Fenwick Float} (hsampler : t.sampler = .fenwick f) {draw : Float} {d : Rat}
    (hdraw : Reads draw d) (hlow : 0 ≤ d) (hhigh : d ≤ 1) :
    ¬ 0 < f.total ∧ t.drop draw = .placeholder ∨
      0 < f.total ∧ ∃ index e, t.entries[index]? = some e ∧ t.drop draw = e ∧
        index = Fenwick.search (fun index => draw * f.total ≤ f.sumTo index) 0 (f.size - 1) := by
  have hdrop := drop_of_plain hplain draw
  rw [hsampler, Sampler.select?] at hdrop
  obtain ⟨hnone, hselect⟩ | ⟨hpositive, index, hindex, hselect, hsearch⟩ :=
    f.select?_cases hdraw hlow hhigh
  · rw [hselect] at hdrop
    exact .inl ⟨hnone, hdrop⟩
  · have hsize : f.size = t.entries.length := by rw [← h.size, hsampler, Sampler.size]
    have he := List.getElem?_eq_getElem (hsize ▸ hindex)
    rw [hselect, Option.bind_some, he, Option.getD_some] at hdrop
    exact .inr ⟨hpositive, index, _, he, hdrop, hsearch⟩

private theorem sum_counted_eq_zero_iff (t : Table Float) :
    t.counted.sum = 0 ↔ ∀ e ∈ t.entries, Draw.effective e.weight = 0 := by
  have hnonneg : ∀ w ∈ t.counted, 0 ≤ w := by
    intro w hw
    rw [counted, pieces, List.map_map] at hw
    obtain ⟨e, -, rfl⟩ := List.mem_map.1 hw
    exact Draw.value_effective_nonneg e.weight
  have hentries : (∀ w ∈ t.counted, w = 0) ↔ ∀ e ∈ t.entries, Draw.effective e.weight = 0 := by
    simp [counted, pieces, Draw.effective_eq_zero_iff]
  rw [← hentries]
  constructor
  · intro hsum w hw
    exact List.all_zero_of_le_zero_le_of_sum_eq_zero hnonneg hsum hw
  · exact List.sum_eq_zero

theorem Unrounded.dropsByWeight {t : Table Float} (h : t.Unrounded) (hcoherent : t.Coherent)
    (hplain : ∀ e ∈ t.entries, e.nested = none) (hnamed : ∀ e ∈ t.entries, e ≠ .placeholder)
    {unit : Int} (hunit : Countable unit) (hgrid : OnGrid unit 52 t.counted) {draw : Float} {d : Rat}
    (hdraw : Reads draw d) (hlow : 0 ≤ d) (hhigh : d ≤ 1) : t.DropsByWeight draw := by
  obtain ⟨f, hsampler, hexact⟩ := h
  have hweights := hcoherent.weights_mirror hsampler
  have hroom : OnGrid unit 53 f.mirror.weights := by
    rw [hweights]
    exact (Between.start rfl).onGrid hgrid hgrid
  have hread := hexact.reads_total hunit hroom
  have hsum := List.sum_nonneg hroom.nonneg
  have htotal := hexact.total_pos_iff hunit hroom
  rw [hweights] at hread hsum htotal
  obtain ⟨hnone, hdrop⟩ | ⟨hpositive, index, e, he, hdrop, hsearch⟩ :=
    drop_cases hplain hcoherent.slotted hsampler hdraw hlow hhigh
  · have hzero : t.counted.sum = 0 := le_antisymm (not_lt.1 (htotal.not.1 hnone)) hsum
    exact ⟨iff_of_true hdrop (t.sum_counted_eq_zero_iff.1 hzero), fun hne => absurd hdrop hne⟩
  · have hsome : t.drop draw ≠ .placeholder := hdrop ▸ hnamed e (List.mem_of_getElem? he)
    have hweight : ¬ ∀ e ∈ t.entries, Draw.effective e.weight = 0 := by
      rw [← t.sum_counted_eq_zero_iff]
      exact ne_of_gt (htotal.1 hpositive)
    refine ⟨iff_of_false hsome hweight, fun _ => ⟨index, e, he, hdrop, ?_⟩⟩
    obtain ⟨htarget, -, hle⟩ := Fenwick.target_mem hdraw hread hlow hhigh hsum
    have hfirst := hexact.firstToReach hunit hroom hpositive htarget (hweights ▸ hle)
    rw [← hsearch, hweights] at hfirst
    have hpiece : t.counted.getD index 0 = Binary64.value (Draw.effective e.weight) := by
      simp [counted, pieces, he]
    have hpositive := hfirst.weight_pos
    rw [hpiece, ← Draw.effective_pos_iff, ← reads_zero.lt_iff htarget] at hpositive
    rwa [total, hsampler, Sampler.total]

end Table

namespace Plan

/-- Whether the effective weights have always been so many units each, from creation through all
calls, with no more than `2 ^ 52` units in all. -/
def StaysOnGrid (p : Plan Float) (unit : Int) : Prop :=
  ∀ calls t, calls <+: p.calls → ({ p with calls } : Plan Float).build = .ok t →
    OnGrid unit 52 t.counted

theorem StaysOnGrid.onGrid {p : Plan Float} {unit : Int} (h : p.StaysOnGrid unit) {t : Table Float}
    (hbuild : p.build = .ok t) : OnGrid unit 52 t.counted := by
  cases p
  exact h _ t List.prefix_rfl hbuild

theorem StaysOnGrid.unrounded {p : Plan Float} {unit : Int} (h : p.StaysOnGrid unit)
    (hunit : Countable unit) (hstrategy : p.config.strategy = .fenwick) {t : Table Float}
    (hbuild : p.build = .ok t) : t.Unrounded := by
  obtain ⟨config, bindings, lines, calls⟩ := p
  induction calls using List.reverseRecOn generalizing t with
  | nil =>
      have hgrid := h.onGrid hbuild
      obtain ⟨created, hcreate, rfl⟩ := build_eq_ok_iff.1 hbuild
      obtain ⟨definitions, -, hcreate⟩ := create_eq_ok_iff.1 hcreate
      obtain ⟨-, -, weighed, -, -, rfl⟩ := Table.create_eq_ok_iff.1 hcreate
      exact Table.Current.unrounded rfl hstrategy hunit hgrid
  | append_singleton calls call ih =>
      have hgrid := h.onGrid hbuild
      have hconcat := build_concat ⟨config, bindings, lines, calls⟩ call
      obtain ⟨before, hbefore, rfl⟩ := exists_of_map_eq_ok (hconcat.symm.trans hbuild)
      have hbuilds := builds_of_build hbefore
      have hfront : StaysOnGrid ⟨config, bindings, lines, calls⟩ unit :=
        fun earlier s hearlier => h earlier s (hearlier.trans (List.prefix_append _ _))
      cases call with
      | rebuild => exact Table.Current.unrounded rfl (hbuilds.config ▸ hstrategy) hunit hgrid
      | update name value =>
          have hold := hfront.onGrid hbefore
          exact (ih hfront hstrategy hbefore).update hbuilds.coherent hunit name value hold hgrid

private theorem plain_of_build {p : Plan Float} {t : Table Float} (h : p.build = .ok t)
    (hplain : ∀ line ∈ p.lines, line.nested = none) :
    ∀ e ∈ t.entries, e.nested = none ∧ e ≠ .placeholder := by
  have hlines : ∀ line ∈ p.lines, line.nested = none ∧ line.id.isNone = false :=
    fun line hline => ⟨hplain line hline, (id_of_build h).2 line hline⟩
  refine (builds_of_build h).forall_entries hlines ?_
  rintro line e ⟨hnone, hid⟩ he
  have hnested := he.nested
  rw [hnone] at hnested
  refine ⟨?_, ?_⟩
  · generalize e.nested = table at hnested ⊢
    cases hnested
    rfl
  · rintro rfl
    rw [← he.id] at hid
    contradiction

/-- Whatever has been rounded, a tree drops one of its entries if its total is positive, and none
otherwise.  If the weights have always been on a grid, this goes by weight. -/
theorem dropsByWeight_of_build {p : Plan Float} {t : Table Float} (h : p.build = .ok t)
    (hstrategy : p.config.strategy = .fenwick) (hplain : ∀ line ∈ p.lines, line.nested = none)
    {draw : Float} (hlow : 0 ≤ draw) (hhigh : draw < 1) :
    (t.drop draw = .placeholder ↔ ¬ 0 < t.total) ∧
      (t.drop draw ≠ .placeholder → t.drop draw ∈ t.entries) ∧
      ∀ unit, Countable unit → p.StaysOnGrid unit → t.DropsByWeight draw := by
  have hbuilds := builds_of_build h
  have hentries := plain_of_build h hplain
  have hends : ∀ e ∈ t.entries, e.nested = none := fun e he => (hentries e he).1
  have hnamed : ∀ e ∈ t.entries, e ≠ .placeholder := fun e he => (hentries e he).2
  obtain ⟨d, hdraw, hlow, hhigh⟩ := exists_reads reads_zero reads_one hlow hhigh
  obtain ⟨f, hsampler⟩ : ∃ f, t.sampler = .fenwick f := by
    have hkind := hbuilds.coherent.slotted.strategy
    rw [hbuilds.config, hstrategy] at hkind
    cases hsampler : t.sampler with
    | fenwick f => exact ⟨f, rfl⟩
    | _ => rw [hsampler] at hkind; contradiction
  have htotal : t.total = f.total := by rw [Table.total, hsampler, Sampler.total]
  rw [htotal]
  have hcases := Table.drop_cases hends hbuilds.coherent.slotted hsampler hdraw hlow hhigh.le
  refine ⟨?_, ?_, ?_⟩
  · obtain ⟨hnone, hdrop⟩ | ⟨hpositive, index, e, he, hdrop, hsearch⟩ := hcases
    · exact iff_of_true hdrop hnone
    · exact iff_of_false (hdrop ▸ hnamed e (List.mem_of_getElem? he)) (not_not.2 hpositive)
  · intro hsome
    obtain ⟨-, hdrop⟩ | ⟨hpositive, index, e, he, hdrop, hsearch⟩ := hcases
    · exact absurd hdrop hsome
    · exact hdrop ▸ List.mem_of_getElem? he
  · intro unit hunit hgrid
    exact (hgrid.unrounded hunit hstrategy h).dropsByWeight hbuilds.coherent hends hnamed hunit
      (hgrid.onGrid h) hdraw hlow hhigh.le

/-- Whole numbers are counted without rounding.  When the luck is gone, the pearl is all that is
left. -/
theorem dropsByWeight_of_build_gems :
    let p : Plan Float := { gems .fenwick with calls := [.update "gold" 3, .update "luck" 0] }
    ∃ t, p.build = .ok t ∧ t.DropsByWeight 0.5 ∧ (t.drop 0.5).id = ⟨"pearl"⟩ := by
  intro p
  have hgrid : p.StaysOnGrid 0 := by
    let wholes : List (List Nat) := [[1, 0], [1, 3], [0, 3]]
    have hcounted : ∀ calls ∈ p.calls.inits, ({ p with calls } : Plan Float).build.map
        Table.counted ∈ wholes.map fun counts => .ok (counts.map (↑)) := by
      decide +kernel
    have hroom : ∀ counts ∈ wholes, counts.sum ≤ 2 ^ 52 := by decide +kernel
    intro calls t hcalls hbuild
    have hcounts := hcounted calls ((List.mem_inits _ _).2 hcalls)
    rw [hbuild] at hcounts
    obtain ⟨counts, hmem, heq⟩ := List.mem_map.1 hcounts
    rw [← Except.ok.inj heq]
    exact onGrid_natCast (hroom counts hmem)
  have hdrop : p.build.map (fun t => (t.drop 0.5).id) = .ok ⟨"pearl"⟩ := by decide +kernel
  obtain ⟨t, ht, hpearl⟩ := exists_of_map_eq_ok hdrop
  have hlow : (0 : Float) ≤ 0.5 := by decide +kernel
  have hhigh : (0.5 : Float) < 1 := by decide +kernel
  obtain ⟨-, -, hdrops⟩ := dropsByWeight_of_build ht rfl (by simp [p, gems]) hlow hhigh
  exact ⟨t, ht, hdrops 0 ⟨by norm_num, by norm_num⟩ hgrid, hpearl⟩

/-- The weights of a ruby and a pearl do not add up to a double.  When both of them are taken away,
one after the other, something remains that no entry accounts for, and the pearl is dropped. -/
theorem drop_leftover_pearl :
    let p : Plan Float :=
      { config := default
        bindings := .ofList [("gold", 0.2), ("luck", 0.1)]
        lines := [{ id := ⟨"ruby"⟩, formula := "luck", nested := none },
          { id := ⟨"pearl"⟩, formula := "gold", nested := none }]
        calls := [.update "luck" 0, .update "gold" 0] }
    ∃ t, p.build = .ok t ∧ (∀ e ∈ t.entries, Draw.effective e.weight = 0) ∧
      (t.drop 0.5).id = ⟨"pearl"⟩ ∧ ¬ t.DropsByWeight 0.5 := by
  intro p
  have hdrop : p.build.map (fun t => (t.entries.map fun e => Draw.effective e.weight,
      (t.drop 0.5).id)) = .ok ([0, 0], ⟨"pearl"⟩) := by
    decide +kernel
  obtain ⟨t, ht, hresult⟩ := exists_of_map_eq_ok hdrop
  obtain ⟨hweights, hpearl⟩ := Prod.mk.inj hresult
  have hzero : ∀ e ∈ t.entries, Draw.effective e.weight = 0 := by
    intro e he
    have hmem := List.mem_map_of_mem (f := fun e => Draw.effective e.weight) he
    rw [hweights] at hmem
    simpa using hmem
  refine ⟨t, ht, hzero, hpearl, ?_⟩
  intro hdrops
  rw [hdrops.placeholder.2 hzero] at hpearl
  contradiction

end Plan

end DropTable
