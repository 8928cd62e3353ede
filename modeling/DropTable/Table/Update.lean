import DropTable.Table
/-!
# Changing variables

A new value of a variable reaches the entries that refer to it, and then the nested tables of all
entries. A sampler that cannot be updated keeps its weights until the table is rebuilt.
-/

namespace DropTable.Table

variable {α : Type} [Scalar α] [Numeral α]

/-- Evaluates the entry at a position again and hands its weight to the sampler. An entry that fails
keeps its weight. -/
def reweigh (t : Table α) (position : Nat) : Table α × List Fault :=
  match t.entries[position]? with
  | none => (t, [])
  | some e =>
    match e.weigh t.config.onMissingVariable t.bindings with
    | .ok weighed =>
      ({ t with
          entries := t.entries.set position weighed
          sampler := t.sampler.update position weighed.weight }, [])
    | .error fault => (t, [fault])

/-- Sets a variable at one level: the entries that refer to it are evaluated again, in order. -/
def assign (t : Table α) (name : String) (value : α) : Table α × List Fault :=
  (t.references.dependents name).foldl
    (fun (t, faults) position =>
      let (t, more) := t.reweigh position
      (t, faults ++ more))
    ({ t with bindings := t.bindings.insert name value }, [])

/-- Sets a variable here and in all nested tables. The faults of this level come first. -/
def update (t : Table α) (name : String) (value : α) : Table α × List Fault :=
  let inner := t.entries.attach.map fun ⟨e, _⟩ =>
    match _h : e.nested with
    | none => (e, [])
    | some nested =>
      let (nested, faults) := nested.update name value
      ({ e with nested := some nested }, faults.map (.inEntry e.id))
  let (level, faults) := { t with entries := inner.map Prod.fst }.assign name value
  (level, faults ++ inner.flatMap Prod.snd)
termination_by sizeOf t
decreasing_by exact sizeOf_nested_lt ‹_› ‹_›

/-- Builds the sampler of this level anew from the current weights. Nested tables keep theirs. -/
def rebuild (t : Table α) : Table α :=
  { t with sampler := .build t.config.strategy (t.entries.map (·.weight)) }

end DropTable.Table
