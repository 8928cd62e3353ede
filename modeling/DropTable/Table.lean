import DropTable.Config
import DropTable.EntryId
import DropTable.References
/-!
# Tables

A table holds entries with their programs and current weights, the variables it knows, and a sampler
over the weights. An entry may carry a table of its own, to any depth.
-/

namespace DropTable

/-- An entry whose nested table is of type `τ`. -/
structure EntryOf (α τ : Type) where
  id : EntryId
  program : Program α
  weight : α
  nested : Option τ

namespace EntryOf

variable {α τ : Type}

/-- What a drop returns when nothing is selected. -/
def placeholder [Scalar α] : EntryOf α τ :=
  { id := .none, program := .constant 0, weight := 0, nested := none }

def hasVariables (e : EntryOf α τ) : Bool :=
  e.program.hasVariables

/-- Evaluates the program of an entry to its new weight. -/
def weigh [Scalar α] [Numeral α] (missing : MissingVariable) (bindings : Bindings α)
    (e : EntryOf α τ) : Except Fault (EntryOf α τ) :=
  match e.program.evaluate missing bindings with
  | .ok weight => .ok { e with weight }
  | .error fault => .error (.inEntry e.id fault)

end EntryOf

structure Table (α : Type) where
  entries : List (EntryOf α (Table α))
  bindings : Bindings α
  references : References
  sampler : Sampler α
  config : Config

abbrev Entry (α : Type) :=
  EntryOf α (Table α)

namespace Table

variable {α : Type}

def size (t : Table α) : Nat :=
  t.entries.length

def isEmpty (t : Table α) : Bool :=
  t.entries.isEmpty

/-- The first entry with an identifier. -/
def entry? (t : Table α) (id : String) : Option (Entry α) :=
  t.entries.find? fun e => e.id.text == id

def weight? (t : Table α) (id : String) : Option α :=
  (t.entry? id).map (·.weight)

/-- The variables that some entry refers to. -/
def variableNames (t : Table α) : List String :=
  t.references.variableNames

/-- The entries that refer to a variable. -/
def dependents (t : Table α) (name : String) : List EntryId :=
  (t.references.dependents name).filterMap fun position => t.entries[position]?.map (·.id)

def total [Scalar α] (t : Table α) : α :=
  t.sampler.total

theorem sizeOf_nested_lt {t inner : Table α} {e : Entry α} (he : e ∈ t.entries)
    (hinner : e.nested = some inner) : sizeOf inner < sizeOf t := by
  have hentry : sizeOf inner < sizeOf e := by
    cases e
    simp only at hinner
    subst hinner
    simp only [EntryOf.mk.sizeOf_spec, Option.some.sizeOf_spec]
    omega
  have hentries := List.sizeOf_lt_of_mem he
  cases t
  simp only [Table.mk.sizeOf_spec] at *
  omega

/-- The table in which the drop goes on from an entry. -/
def inner? (t : Table α) (e : Entry α) : Option (Table α) :=
  if t.config.nested then e.nested else none

theorem sizeOf_inner?_lt {t inner : Table α} {index : Nat} {e : Entry α}
    (he : t.entries[index]? = some e) (hinner : t.inner? e = some inner) :
    sizeOf inner < sizeOf t := by
  unfold inner? at hinner
  split at hinner
  · exact sizeOf_nested_lt (List.mem_of_getElem? he) hinner
  · simp at hinner

end Table

end DropTable
