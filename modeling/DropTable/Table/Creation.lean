import DropTable.Table
/-!
# Creating tables

Definitions become a table in two passes. First every formula is compiled, then every program is
evaluated, and each pass reports the faults of all entries before it gives up. Entries without
variables are placed in front of the others.
-/

namespace DropTable

/-- What an entry is made from: an identifier, the text of its weight formula, and possibly a
table. -/
structure Definition (α : Type) where
  id : EntryId
  formula : String
  nested : Option (Table α)

namespace FaultList

/-- All results, or the faults of all that failed. -/
def collect {β : Type} (results : List (Except FaultList β)) : Except FaultList (List β) :=
  let faults := results.flatMap fun
    | .ok _ => []
    | .error faults => faults.toList
  check faults (results.filterMap Except.toOption)

/-- The same faults as faults in an entry. -/
def inEntry (id : EntryId) (faults : FaultList) : FaultList :=
  ⟨.inEntry id faults.first, faults.others.map (.inEntry id)⟩

end FaultList

variable {α : Type} [Scalar α] [Numeral α]

namespace Definition

/-- The entry of a definition before its weight is known. -/
def compile (d : Definition α) : Except FaultList (Entry α) :=
  if d.id.isNone then .error ⟨.emptyEntryId, []⟩
  else
    match Program.compile d.formula with
    | .ok program => .ok { id := d.id, program, weight := 0, nested := d.nested }
    | .error faults => .error (faults.inEntry d.id)

end Definition

namespace Table

/-- Entries without variables first, and otherwise in the order given. -/
def arrange (entries : List (Entry α)) : List (Entry α) :=
  entries.filter (!·.hasVariables) ++ entries.filter (·.hasVariables)

/-- The table of entries whose weights are known. -/
def ofEntries (config : Config) (bindings : Bindings α) (entries : List (Entry α)) : Table α :=
  { entries
    bindings
    references := .ofPrograms (entries.map (·.program))
    sampler := .build config.strategy (entries.map (·.weight))
    config }

def create (config : Config) (bindings : Bindings α) (definitions : List (Definition α)) :
    Except FaultList (Table α) := do
  if definitions.isEmpty then
    throw ⟨.emptyTable, []⟩
  let entries ← FaultList.collect (definitions.map Definition.compile)
  let weighed ← FaultList.collect ((arrange entries).map fun e =>
    (e.weigh config.onMissingVariable bindings).mapError fun fault => ⟨fault, []⟩)
  return ofEntries config bindings weighed

end Table

end DropTable
