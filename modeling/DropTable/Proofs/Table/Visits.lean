import DropTable.Numeral.Binary64
import DropTable.Proofs.Sampler.Guarded
import DropTable.Proofs.Table.Drops
import DropTable.Proofs.Table.Samplers
import DropTable.Scalar.Binary64
/-!
# The levels that a drop visits

A drop under guard fails if it looks anything up past the end of a list, and otherwise keeps a
record of the levels it visits and of what is selected there.  In a tree that a plan builds no guard
ever fails, whatever the draw and the source of words are, and the record tells where the result
comes from.
-/

namespace DropTable

variable {α : Type}

/-- A level with the index that is selected there, if there is one. -/
structure Visit (α : Type) where
  level : Table α
  index? : Option Nat

namespace Table

section Guarded

variable [Scalar α]

/-- The selection at one level, with a source of words or without. -/
def pickFrom (t : Table α) (draw : α) : Option Words → Option (Pick α) × Option Words
  | none => (t.pick? draw, none)
  | some words => ((t.pickWith draw words).1, some (t.pickWith draw words).2)

/-- A drop with a source of words or without. -/
def dropFrom (t : Table α) (draw : α) : Option Words → Entry α × Option Words
  | none => (t.drop draw, none)
  | some words => ((t.dropWith draw words).1, some (t.dropWith draw words).2)

def guardedPick (t : Table α) (draw : α) : Option (Option (Pick α)) :=
  if t.config.nested then t.sampler.guardedPick draw
  else (t.sampler.guardedSelect draw).map fun index => index.map (⟨·, draw⟩)

def guardedPickWith (t : Table α) (draw : α) (words : Words) :
    Option (Option (Pick α) × Words) :=
  if t.config.nested then t.sampler.guardedPickWith draw words
  else (t.sampler.guardedSelectWith draw words).map fun (index, words) =>
    (index.map (⟨·, draw⟩), words)

def guardedPickFrom (t : Table α) (draw : α) :
    Option Words → Option (Option (Pick α) × Option Words)
  | none => (t.guardedPick draw).map (·, none)
  | some words => (t.guardedPickWith draw words).map fun (pick, words) => (pick, some words)

/-- The visits of a drop and its result, unless a guard fails. -/
def guardedDrop (t : Table α) (draw : α) (source : Option Words) :
    Option (List (Visit α) × Entry α × Option Words) :=
  match t.guardedPickFrom draw source with
  | none => none
  | some (none, source) => some ([⟨t, none⟩], .placeholder, source)
  | some (some pick, source) =>
    match _he : t.entries[pick.index]? with
    | none => none
    | some e =>
      match _hinner : t.inner? e with
      | none => some ([⟨t, some pick.index⟩], e, source)
      | some inner => (inner.guardedDrop pick.residual source).map fun (visits, result) =>
          (⟨t, some pick.index⟩ :: visits, result)
termination_by sizeOf t
decreasing_by exact sizeOf_inner?_lt ‹_› ‹_›

/-! ## One level -/

/-- What the selection at a level relies on. -/
structure Sound (t : Table α) : Prop where
  nonempty : t.entries ≠ []
  size : t.sampler.size = t.entries.length
  sized : t.sampler.Sized
  ids : ∀ e ∈ t.entries, e.id.isNone = false

variable {t : Table α}

omit [Scalar α] in
theorem Sound.size_pos (h : t.Sound) : 0 < t.sampler.size := by
  rw [h.size]
  exact List.length_pos_of_ne_nil h.nonempty

theorem Sound.guardedPickFrom_eq (h : t.Sound) (draw : α) (source : Option Words) :
    t.guardedPickFrom draw source = some (t.pickFrom draw source) := by
  have hpos := h.size_pos
  cases source with
  | none =>
      rw [guardedPickFrom, guardedPick, pickFrom, pick?, h.sized.guardedPick_eq hpos,
        h.sized.guardedSelect_eq hpos]
      split <;> rfl
  | some words =>
      rw [guardedPickFrom, guardedPickWith, pickFrom, pickWith, h.sized.guardedPickWith_eq hpos,
        h.sized.guardedSelectWith_eq hpos]
      split <;> rfl

theorem Sound.index_lt (h : t.Sound) {draw : α} {source : Option Words} {pick : Pick α}
    (hpick : (t.pickFrom draw source).1 = some pick) : pick.index < t.entries.length := by
  have hpos := h.size_pos
  rw [← h.size]
  cases source with
  | none =>
      have hselect : t.sampler.select? draw = some pick.index := by
        rw [← map_index_pick?, show t.pick? draw = some pick from hpick, Option.map_some]
      exact h.sized.select?_lt hpos hselect
  | some words =>
      have hselect : (t.sampler.selectWith draw words).1 = some pick.index := by
        rw [← map_index_pickWith, show (t.pickWith draw words).1 = some pick from hpick,
          Option.map_some]
      exact h.sized.selectWith_lt hpos hselect

/-! ## From one level to the next -/

private theorem dropFrom_of_nothing {draw : α} {source rest : Option Words}
    (hpick : t.pickFrom draw source = (none, rest)) :
    t.dropFrom draw source = (.placeholder, rest) := by
  cases source with
  | none =>
      simp only [pickFrom, Prod.mk.injEq] at hpick
      obtain ⟨hpick, rfl⟩ := hpick
      rw [dropFrom, drop_eq, hpick]
      rfl
  | some words =>
      simp only [pickFrom, Prod.mk.injEq] at hpick
      obtain ⟨hpick, rfl⟩ := hpick
      have hdrop : t.dropWith draw words = (.placeholder, (t.pickWith draw words).2) := by
        rw [dropWith.eq_def]
        split
        case h_1 hnone => rw [hnone]
        case h_2 hsome => rw [hsome] at hpick; contradiction
      rw [dropFrom, hdrop]

private theorem dropFrom_of_pick {draw : α} {source rest : Option Words} {pick : Pick α}
    {e : Entry α}
    (hpick : t.pickFrom draw source = (some pick, rest)) (he : t.entries[pick.index]? = some e) :
    t.dropFrom draw source =
      (t.inner? e).elim (e, rest) fun inner => inner.dropFrom pick.residual rest := by
  cases source with
  | none =>
      simp only [pickFrom, Prod.mk.injEq] at hpick
      obtain ⟨hpick, rfl⟩ := hpick
      rw [dropFrom, drop_of_pick hpick he]
      cases t.inner? e <;> rfl
  | some words =>
      simp only [pickFrom, Prod.mk.injEq] at hpick
      obtain ⟨hpick, rfl⟩ := hpick
      have hdrop : t.dropWith draw words =
          (t.inner? e).elim (e, (t.pickWith draw words).2) fun inner =>
            inner.dropWith pick.residual (t.pickWith draw words).2 := by
        rw [dropWith.eq_def]
        split
        case h_1 hnone => rw [hnone] at hpick; contradiction
        case h_2 hsome =>
          rw [hsome] at hpick ⊢
          cases hpick
          split
          case h_1 hmissing => rw [he] at hmissing; contradiction
          case h_2 hentry =>
            cases he.symm.trans hentry
            split
            case h_1 hinner => rw [hinner, Option.elim_none]
            case h_2 hinner => rw [hinner, Option.elim_some]
      rw [dropFrom, hdrop]
      cases t.inner? e <;> rfl

theorem guardedDrop_of_pick {draw : α} {source rest : Option Words} {pick : Pick α} {e : Entry α}
    (hpick : t.guardedPickFrom draw source = some (some pick, rest))
    (he : t.entries[pick.index]? = some e) :
    t.guardedDrop draw source =
      (t.inner? e).elim (some ([⟨t, some pick.index⟩], e, rest)) fun inner =>
        (inner.guardedDrop pick.residual rest).map fun (visits, result) =>
          (⟨t, some pick.index⟩ :: visits, result) := by
  rw [guardedDrop.eq_def, hpick]
  dsimp only
  split
  case h_1 hmissing => rw [he] at hmissing; contradiction
  case h_2 hentry =>
    cases he.symm.trans hentry
    split
    case h_1 hinner => rw [hinner, Option.elim_none]
    case h_2 hinner => rw [hinner, Option.elim_some]

omit [Scalar α] in
theorem nested_of_inner? {e : Entry α} {inner : Table α} (h : t.inner? e = some inner) :
    e.nested = some inner := by
  unfold inner? at h
  split at h
  case isTrue => exact h
  case isFalse => contradiction

/-- How the visits of a drop lead to its result. -/
structure Leads (t : Table α) (visits : List (Visit α)) (result : Entry α) : Prop where
  path : ∀ count visit, visits[count]? = some visit →
    t.level? ((visits.take count).filterMap (·.index?)) = some visit.level
  index_lt : ∀ visit ∈ visits, ∀ index, visit.index? = some index → index < visit.level.size
  ends : ∃ visit ∈ visits.getLast?,
    (visit.index? = none ∧ result = .placeholder ∨
      ∃ index, visit.index? = some index ∧ visit.level.entries[index]? = some result) ∧
    (result.nested.isSome → visit.level.config.nested = false)
  isNone_iff : result.id.isNone = true ↔ ∃ visit ∈ visits, visit.index? = none

omit [Scalar α] in
private theorem level?_of_single {index? : Option Nat} {count : Nat} {visit : Visit α}
    (h : [Visit.mk t index?][count]? = some visit) :
    t.level? (([Visit.mk t index?].take count).filterMap (·.index?)) = some visit.level := by
  cases count with
  | zero =>
      cases h
      rfl
  | succ count => contradiction

private theorem leads_nothing (t : Table α) : t.Leads [⟨t, none⟩] .placeholder where
  path := fun _ _ => level?_of_single
  index_lt := by simp
  ends := ⟨_, rfl, .inl ⟨rfl, rfl⟩, fun h => by contradiction⟩
  isNone_iff := by simp [EntryOf.placeholder, EntryId.isNone, EntryId.none]

private theorem Sound.leads_entry (h : t.Sound) {index : Nat} {e : Entry α}
    (he : t.entries[index]? = some e) (hends : t.inner? e = none) : t.Leads [⟨t, some index⟩] e where
  path := fun _ _ => level?_of_single
  index_lt := by
    rintro visit hvisit other hother
    cases List.mem_singleton.1 hvisit
    cases hother
    exact (List.getElem?_eq_some_iff.1 he).1
  ends := by
    refine ⟨_, rfl, .inr ⟨index, rfl, he⟩, fun hnested => ?_⟩
    unfold inner? at hends
    split at hends
    case isTrue => simp [hends] at hnested
    case isFalse hplain => simpa using hplain
  isNone_iff := by simp [h.ids e (List.mem_of_getElem? he)]

theorem Leads.enter {inner : Table α} {visits : List (Visit α)} {result : Entry α}
    (h : inner.Leads visits result) {index : Nat} {e : Entry α} (he : t.entries[index]? = some e)
    (hinner : t.inner? e = some inner) : t.Leads (⟨t, some index⟩ :: visits) result where
  path := by
    intro count visit hvisit
    cases count with
    | zero =>
        cases hvisit
        rfl
    | succ count =>
        have hpath : ((Visit.mk t (some index) :: visits).take (count + 1)).filterMap (·.index?) =
            index :: (visits.take count).filterMap (·.index?) := rfl
        rw [hpath, level?, he, Option.bind_some, nested_of_inner? hinner,
          Option.bind_some]
        exact h.path count visit hvisit
  index_lt := by
    rintro visit hvisit other hother
    rcases List.mem_cons.1 hvisit with rfl | hlater
    · cases hother
      exact (List.getElem?_eq_some_iff.1 he).1
    · exact h.index_lt visit hlater other hother
  ends := by
    obtain ⟨visit, hvisit, hends⟩ := h.ends
    refine ⟨visit, ?_, hends⟩
    rw [List.getLast?_cons, Option.mem_def.1 hvisit]
    rfl
  isNone_iff := by simpa using h.isNone_iff

theorem leads_of_everywhere (h : t.Everywhere Sound) (draw : α) (source : Option Words) :
    ∃ visits, t.guardedDrop draw source = some (visits, t.dropFrom draw source) ∧
      t.Leads visits (t.dropFrom draw source).1 := by
  induction t using nested_induction generalizing draw source with
  | step t ih =>
      obtain ⟨hlevel, hnested⟩ := everywhere_iff.1 h
      have hguarded := hlevel.guardedPickFrom_eq draw source
      cases hpick : t.pickFrom draw source with
      | mk pick? rest =>
          rw [hpick] at hguarded
          cases pick? with
          | none =>
              rw [dropFrom_of_nothing hpick, guardedDrop.eq_def, hguarded]
              exact ⟨_, rfl, leads_nothing t⟩
          | some pick =>
              have hindex : pick.index < t.entries.length := hlevel.index_lt (by rw [hpick])
              have he := List.getElem?_eq_getElem hindex
              rw [dropFrom_of_pick hpick he, guardedDrop_of_pick hguarded he]
              cases hinner : t.inner? t.entries[pick.index] with
              | none => exact ⟨_, rfl, hlevel.leads_entry he hinner⟩
              | some inner =>
                  have hcarried := nested_of_inner? hinner
                  have hmem := List.getElem_mem hindex
                  obtain ⟨visits, hdrop, hleads⟩ := ih _ hmem inner hcarried
                    (hnested _ hmem inner hcarried) pick.residual rest
                  refine ⟨⟨t, some pick.index⟩ :: visits, ?_, hleads.enter he hinner⟩
                  rw [Option.elim_some, Option.elim_some, hdrop]
                  rfl

end Guarded

end Table

namespace Plan

variable [Scalar α] [Numeral α]

theorem everywhere_sound_of_build {p : Plan α} {t : Table α} (h : p.build = .ok t) :
    t.Everywhere Table.Sound := by
  intro path level hlevel
  obtain ⟨q, -, hbuild⟩ := build_of_level h hlevel
  have hbuilds := builds_of_build hbuild
  obtain ⟨hlines, hids⟩ := id_of_build hbuild
  refine ⟨?_, hbuilds.coherent.slotted.size, ?_, ?_⟩
  · obtain ⟨line, hline⟩ := List.exists_mem_of_ne_nil _ hlines
    have harranged := List.ne_nil_of_mem (mem_arranged.2 hline)
    rintro hnil
    exact harranged (List.forall₂_nil_right_iff.1 (hnil ▸ hbuilds.entries))
  · exact sampler_of_build Sampler.sized_build (fun _ index weight hs => hs.update index weight) hbuild
  · exact hbuilds.forall_entries hids fun line e hline he => he.id ▸ hline

/-- Whatever was called on a table that was created, a drop from it looks nothing up past the end of
a list, and the levels it visits lead to its result. -/
theorem leads_of_build {p : Plan α} {t : Table α} (h : p.build = .ok t) (draw : α)
    (source : Option Words) :
    ∃ visits, t.guardedDrop draw source = some (visits, t.dropFrom draw source) ∧
      t.Leads visits (t.dropFrom draw source).1 :=
  Table.leads_of_everywhere (everywhere_sound_of_build h) draw source

/-- A pouch is opened with one word to come, by a draw beyond all weights. -/
theorem leads_of_build_pouch :
    let p : Plan Float := pouch .aliasBuckets .fenwick [.update "luck" (0 / 0), .rebuild]
    let source := some (Words.ofList [1])
    ∃ t visits, p.build = .ok t ∧
      t.guardedDrop (1 / 0) source = some (visits, t.dropFrom (1 / 0) source) ∧
      t.Leads visits (t.dropFrom (1 / 0) source).1 := by
  intro p source
  obtain ⟨t, ht⟩ : ∃ t, p.build = .ok t := exists_of_isOk (by decide +kernel)
  obtain ⟨visits, hdrop, hleads⟩ := leads_of_build ht (1 / 0) source
  exact ⟨t, visits, ht, hdrop, hleads⟩

end Plan

end DropTable
