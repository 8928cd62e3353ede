import DropTable.Table.Drop
/-!
# Where drops end

A drop ends at the entry that its level picks, or goes on in the table that this entry carries.  If
no entry carries one, a drop is nothing but the selection of a sampler.
-/

namespace DropTable.Table

variable {α : Type} [Scalar α]

theorem drop_eq (t : Table α) (draw : α) :
    t.drop draw =
      match (t.pick? draw).bind fun pick => t.entries[pick.index]?.map (pick.residual, ·) with
      | none => .placeholder
      | some (residual, e) => (t.inner? e).elim e fun inner => inner.drop residual := by
  rw [drop.eq_def]
  cases t.pick? draw with
  | none => rfl
  | some pick =>
      simp only [Option.bind_some]
      split
      case h_1 hnone => rw [hnone, Option.map_none]
      case h_2 e he =>
        simp only [he, Option.map_some]
        split
        case h_1 hinner => rw [hinner, Option.elim_none]
        case h_2 inner hinner => rw [hinner, Option.elim_some]

theorem drop_of_pick {t : Table α} {draw : α} {pick : Pick α} {e : Entry α}
    (hpick : t.pick? draw = some pick) (he : t.entries[pick.index]? = some e) :
    t.drop draw = (t.inner? e).elim e fun inner => inner.drop pick.residual := by
  rw [drop_eq, hpick, Option.bind_some, he, Option.map_some]

theorem map_index_pick? (t : Table α) (draw : α) :
    (t.pick? draw).map Pick.index = t.sampler.select? draw := by
  have hsampler : (t.sampler.pick? draw).map Pick.index = t.sampler.select? draw := by
    cases t.sampler with
    | aliasBuckets a => rfl
    | _ => exact Option.map_map .. |>.trans (Option.map_id' ..)
  unfold pick?
  split
  case isTrue => exact hsampler
  case isFalse => exact Option.map_map .. |>.trans (Option.map_id' ..)

theorem map_index_pickWith (t : Table α) (draw : α) (words : Words) :
    (t.pickWith draw words).1.map Pick.index = (t.sampler.selectWith draw words).1 := by
  have hsampler : (t.sampler.pickWith draw words).1.map Pick.index =
      (t.sampler.selectWith draw words).1 := by
    cases t.sampler with
    | aliasBuckets a => rfl
    | _ => exact Option.map_map .. |>.trans (Option.map_id' ..)
  unfold pickWith
  split
  case isTrue => exact hsampler
  case isFalse => exact Option.map_map .. |>.trans (Option.map_id' ..)

theorem drop_of_plain {t : Table α} (hplain : ∀ e ∈ t.entries, e.nested = none) (draw : α) :
    t.drop draw = ((t.sampler.select? draw).bind (t.entries[·]?)).getD .placeholder := by
  rw [drop_eq, ← map_index_pick?]
  cases t.pick? draw with
  | none => rfl
  | some pick =>
      simp only [Option.map_some, Option.bind_some]
      cases he : t.entries[pick.index]? with
      | none => rfl
      | some e =>
          have hends : t.inner? e = none := by
            unfold inner?
            split
            · exact hplain e (List.mem_of_getElem? he)
            · rfl
          simp only [Option.map_some, hends]
          rfl

end DropTable.Table
