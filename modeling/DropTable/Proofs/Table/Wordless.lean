import DropTable.Proofs.Table.Visits
/-!
# Drops that leave their words alone

Buckets alone draw random words.  In a tree without buckets, a drop with a source of words visits
the levels that it visits without one, selects the same index at each and hands on the same
residual, so that it ends at the same entry and leaves the source as it was.
-/

namespace DropTable

variable {α : Type} [Scalar α]

namespace Table

/-- A level whose selection is sound and draws no words. -/
structure Wordless (t : Table α) : Prop extends t.Sound where
  strategy : t.sampler.strategy ≠ .aliasBuckets

variable {t : Table α}

theorem Wordless.pickFrom_eq (h : t.Wordless) (draw : α) (source : Option Words) :
    t.pickFrom draw source = (t.pick? draw, source) := by
  cases source with
  | none => rfl
  | some words =>
      have hlevel : t.pickWith draw words = (t.pick? draw, words) := by
        rw [pickWith, pick?, Sampler.pickWith_eq h.strategy, Sampler.selectWith_eq h.strategy]
        split <;> rfl
      rw [pickFrom, hlevel]

theorem Wordless.guardedPickFrom_eq (h : t.Wordless) (draw : α) (source : Option Words) :
    t.guardedPickFrom draw source = some (t.pick? draw, source) := by
  rw [h.toSound.guardedPickFrom_eq, h.pickFrom_eq]

private theorem exists_visits (h : t.Everywhere Wordless) (draw : α) :
    ∃ visits, ∀ source, t.guardedDrop draw source = some (visits, t.drop draw, source) := by
  induction t using nested_induction generalizing draw with
  | step t ih =>
      obtain ⟨hlevel, hnested⟩ := everywhere_iff.1 h
      have hguarded := hlevel.guardedPickFrom_eq draw
      cases hpick : t.pick? draw with
      | none =>
          refine ⟨[⟨t, none⟩], fun source => ?_⟩
          rw [guardedDrop.eq_def, hguarded, hpick, drop_eq, hpick]
          rfl
      | some pick =>
          rw [hpick] at hguarded
          have hpicked : (t.pickFrom draw none).1 = some pick := hpick
          have hindex := hlevel.index_lt hpicked
          have he := List.getElem?_eq_getElem hindex
          rw [drop_of_pick hpick he]
          cases hinner : t.inner? t.entries[pick.index] with
          | none =>
              refine ⟨[⟨t, some pick.index⟩], fun source => ?_⟩
              rw [guardedDrop_of_pick (hguarded source) he, hinner]
              rfl
          | some inner =>
              have hmem := List.getElem_mem hindex
              have hcarried := nested_of_inner? hinner
              obtain ⟨visits, hvisits⟩ :=
                ih _ hmem inner hcarried (hnested _ hmem inner hcarried) pick.residual
              refine ⟨⟨t, some pick.index⟩ :: visits, fun source => ?_⟩
              rw [guardedDrop_of_pick (hguarded source) he, hinner, Option.elim_some, hvisits]
              rfl

theorem dropFrom_eq (h : t.Everywhere Wordless) (draw : α) (source : Option Words) :
    t.dropFrom draw source = (t.drop draw, source) := by
  have hsound : t.Everywhere Sound := fun path level hlevel => (h path level hlevel).toSound
  obtain ⟨visits, hvisits⟩ := exists_visits h draw
  obtain ⟨visits', hdrop, -⟩ := leads_of_everywhere hsound draw source
  rw [hvisits source, Option.some.injEq, Prod.mk.injEq] at hdrop
  exact hdrop.2.symm

end Table

namespace Plan

variable [Numeral α]

theorem wordless_of_build {p : Plan α} {t : Table α} (h : p.build = .ok t)
    (hlevels : t.Everywhere fun level => level.config.strategy ≠ .aliasBuckets) :
    t.Everywhere Table.Wordless := by
  intro path level hlevel
  obtain ⟨q, -, hbuild⟩ := build_of_level h hlevel
  have hstrategy := (builds_of_build hbuild).coherent.slotted.strategy
  refine ⟨everywhere_sound_of_build h path level hlevel, ?_⟩
  rw [hstrategy]
  exact hlevels path level hlevel

/-- In a tree without buckets, a drop with a source of words ends at the entry at which it ends
without one, by the same visits, and no word is taken. -/
theorem dropWith_of_build {p : Plan α} {t : Table α} (h : p.build = .ok t)
    (hlevels : t.Everywhere fun level => level.config.strategy ≠ .aliasBuckets) (draw : α)
    (words : Words) :
    t.dropWith draw words = (t.drop draw, words) ∧
      ∃ visits, t.guardedDrop draw none = some (visits, t.drop draw, none) ∧
        t.guardedDrop draw (some words) = some (visits, t.drop draw, some words) ∧
        t.Leads visits (t.drop draw) := by
  have hwordless := wordless_of_build h hlevels
  obtain ⟨visits, hvisits⟩ := Table.exists_visits hwordless draw
  obtain ⟨visits', hdrop, hleads⟩ := leads_of_build h draw none
  rw [hvisits none, Option.some.injEq, Prod.mk.injEq] at hdrop
  obtain ⟨rfl, -⟩ := hdrop
  refine ⟨?_, visits, hvisits none, hvisits (some words), hleads⟩
  have hfrom := Table.dropFrom_eq hwordless draw (some words)
  rw [Table.dropFrom, Prod.mk.injEq, Option.some.injEq] at hfrom
  exact Prod.ext hfrom.1 hfrom.2

/-- A pearl is found in a pouch that is searched after its tree, and the word to come still is. -/
theorem dropWith_of_build_pouch :
    let p : Plan Float := pouch .fenwick .cumulative [.update "gold" 3]
    let words := Words.ofList [1]
    ∃ t, p.build = .ok t ∧ (t.drop 0.25).id = ⟨"pearl"⟩ ∧
      t.dropWith 0.25 words = (t.drop 0.25, words) ∧
      ∃ visits, t.guardedDrop 0.25 none = some (visits, t.drop 0.25, none) ∧
        t.guardedDrop 0.25 (some words) = some (visits, t.drop 0.25, some words) ∧
        t.Leads visits (t.drop 0.25) := by
  intro p words
  have hpearl : p.build.map (fun t => (t.drop 0.25).id) = .ok ⟨"pearl"⟩ := by decide +kernel
  obtain ⟨t, ht, hid⟩ := exists_of_map_eq_ok hpearl
  have hchecked : p.build.map (fun t => decide (t.Everywhere fun level =>
      level.config.strategy ≠ .aliasBuckets)) = .ok true := by
    decide +kernel
  rw [ht] at hchecked
  have hlevels := of_decide_eq_true (Except.ok.inj hchecked)
  exact ⟨t, ht, hid, dropWith_of_build ht hlevels 0.25 words⟩

end Plan

end DropTable
