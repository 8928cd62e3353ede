import DropTable.Table
/-!
# Drops

A draw selects an entry. Where the configuration asks for it, the drop goes on in the nested table
of that entry with the residual of the draw.
-/

namespace DropTable.Table

variable {α : Type} [Scalar α]

/-- The selection at one level. Without nesting the draw is passed on as it is. -/
def pick? (t : Table α) (draw : α) : Option (Pick α) :=
  if t.config.nested then t.sampler.pick? draw
  else (t.sampler.select? draw).map fun index => ⟨index, draw⟩

/-- The selection at one level with a source of words. -/
def pickWith (t : Table α) (draw : α) (words : Words) : Option (Pick α) × Words :=
  if t.config.nested then t.sampler.pickWith draw words
  else
    let (index, words) := t.sampler.selectWith draw words
    (index.map fun index => ⟨index, draw⟩, words)

/-- The entry that a draw selects, or the placeholder if there is none. -/
def drop (t : Table α) (draw : α) : Entry α :=
  match t.pick? draw with
  | none => .placeholder
  | some pick =>
    match _he : t.entries[pick.index]? with
    | none => .placeholder
    | some e =>
      match _hinner : t.inner? e with
      | none => e
      | some inner => inner.drop pick.residual
termination_by sizeOf t
decreasing_by exact sizeOf_inner?_lt ‹_› ‹_›

/-- The entry that a draw and a source of words select. Nested tables go on with the same source. -/
def dropWith (t : Table α) (draw : α) (words : Words) : Entry α × Words :=
  match t.pickWith draw words with
  | (none, words) => (.placeholder, words)
  | (some pick, words) =>
    match _he : t.entries[pick.index]? with
    | none => (.placeholder, words)
    | some e =>
      match _hinner : t.inner? e with
      | none => (e, words)
      | some inner => inner.dropWith pick.residual words
termination_by sizeOf t
decreasing_by exact sizeOf_inner?_lt ‹_› ‹_›

end DropTable.Table
