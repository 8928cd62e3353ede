import Mathlib.Data.List.DropRight
import DropTable.Proofs.Table.Creation
import DropTable.Table.Update
/-!
# Plans of table trees

A plan is all that decides on a tree of tables: for each level the configuration, the initial
bindings, the definitions and the calls made on its table, which come before the table is handed to
the definition that carries it.  From then on a level is changed by the calls on the tables around
it, so that every level of a tree is what a plan of its own builds.
-/

namespace DropTable

/-- A call on a table. -/
inductive Call (α : Type) where
  | update (name : String) (value : α)
  | rebuild

/-- A definition with something of type `τ` in the place of its nested table. -/
structure Line (τ : Type) where
  id : EntryId
  formula : String
  nested : Option τ

structure Plan (α : Type) where
  config : Config
  bindings : Bindings α
  lines : List (Line (Plan α))
  /-- The calls made on the table after its creation, the first one first. -/
  calls : List (Call α)

variable {α : Type}

namespace Call

/-- Changes of variables reach nested tables, and nothing else does. -/
def isUpdate : Call α → Bool
  | .update _ _ => true
  | .rebuild => false

def assignment? : Call α → Option (String × α)
  | .update name value => some (name, value)
  | .rebuild => none

/-- The table after a call. -/
def perform [Scalar α] [Numeral α] (t : Table α) : Call α → Table α
  | .update name value => (t.update name value).1
  | .rebuild => t.rebuild

end Call

namespace Plan

theorem sizeOf_nested_lt {p inner : Plan α} {line : Line (Plan α)} (hline : line ∈ p.lines)
    (hinner : line.nested = some inner) : sizeOf inner < sizeOf p := by
  have hlines := List.sizeOf_lt_of_mem hline
  cases line
  cases p
  simp only at hinner
  subst hinner
  simp only [Line.mk.sizeOf_spec, Option.some.sizeOf_spec, Plan.mk.sizeOf_spec] at *
  omega

/-- The bindings of the table after all calls. -/
def currentBindings (p : Plan α) : Bindings α :=
  (p.calls.filterMap Call.assignment?).foldl
    (fun bindings (name, value) => bindings.insert name value) p.bindings

/-- The plan without the changes made since the last rebuild, or since creation if there was
none. -/
def settled (p : Plan α) : Plan α :=
  { p with calls := p.calls.rdropWhile Call.isUpdate }

/-- The plan of a nested table that is changed along with the table that carries it. -/
def receive (p : Plan α) (calls : List (Call α)) : Plan α :=
  { p with calls := p.calls ++ calls.filter Call.isUpdate }

variable [Scalar α] [Numeral α]

/-- The table before any calls on it. -/
def create (p : Plan α) : Except FaultList (Table α) := do
  let definitions ← p.lines.attach.mapM fun ⟨line, _⟩ =>
    match _h : line.nested with
    | none => .ok { id := line.id, formula := line.formula, nested := none }
    | some inner => do
      let table ← inner.create
      .ok { id := line.id, formula := line.formula,
            nested := some (inner.calls.foldl Call.perform table) }
  Table.create p.config p.bindings definitions
termination_by sizeOf p
decreasing_by exact sizeOf_nested_lt ‹_› ‹_›

/-- The table after all calls on it. -/
def build (p : Plan α) : Except FaultList (Table α) :=
  p.create.map (p.calls.foldl Call.perform)

end Plan

variable [Scalar α] [Numeral α]

namespace Plan

/-- The lines in the order of the entries. -/
def arranged (p : Plan α) : List (Line (Plan α)) :=
  arrangeBy α Line.formula p.lines

/-- The plan of the table that the entry at a position carries. -/
def inner? (p : Plan α) (position : Nat) : Option (Plan α) :=
  (p.arranged[position]?.bind (·.nested)).map (·.receive p.calls)

/-- The plan of the level at the end of a path of positions. -/
def level? : List Nat → Plan α → Option (Plan α)
  | [], p => some p
  | position :: path, p => (p.inner? position).bind (level? path)

end Plan

/-- The table at the end of a path of positions. -/
def Table.level? : List Nat → Table α → Option (Table α)
  | [], t => some t
  | position :: path, t => (t.entries[position]?.bind (·.nested)).bind (level? path)

/-! ## What a plan builds -/

private theorem mapM_eq_ok_iff {ε β γ : Type} {f : β → Except ε γ} {xs : List β} {ys : List γ} :
    xs.mapM f = .ok ys ↔ List.Forall₂ (fun x y => f x = .ok y) xs ys := by
  induction xs generalizing ys with
  | nil => cases ys <;> simp [pure, Except.pure]
  | cons x xs ih =>
      simp only [List.mapM_cons, bind_eq_ok_iff, ih, pure, Except.pure, Except.ok.injEq,
        List.forall₂_cons_left_iff]
      constructor
      · rintro ⟨y, hy, ys', hys, rfl⟩
        exact ⟨y, ys', hy, hys, rfl⟩
      · rintro ⟨y, ys', hy, hys, rfl⟩
        exact ⟨y, hy, ys', hys, rfl⟩

namespace Plan

/-- The definition that a line stands for once its nested table is built. -/
structure Defines (line : Line (Plan α)) (d : Definition α) : Prop where
  id : d.id = line.id
  formula : d.formula = line.formula
  nested : Option.Rel (fun inner table => inner.build = .ok table) line.nested d.nested

theorem build_eq_ok_iff {p : Plan α} {t : Table α} :
    p.build = .ok t ↔
      ∃ created, p.create = .ok created ∧ p.calls.foldl Call.perform created = t := by
  unfold build
  cases p.create <;> simp [Except.map]

theorem create_eq_ok_iff {p : Plan α} {t : Table α} :
    p.create = .ok t ↔
      ∃ definitions, List.Forall₂ Defines p.lines definitions ∧
        Table.create p.config p.bindings definitions = .ok t := by
  have hdefines : ∀ (f : { line // line ∈ p.lines } → Except FaultList (Definition α))
      (definitions : List (Definition α)),
      (∀ line d, f line = .ok d ↔ Defines line.val d) →
      (p.lines.attach.mapM f = .ok definitions ↔ List.Forall₂ Defines p.lines definitions) := by
    intro f definitions hf
    rw [mapM_eq_ok_iff]
    simp only [hf]
    rw [← List.forall₂_map_left_iff, List.attach_map_subtype_val]
  rw [create, bind_eq_ok_iff]
  simp only
  refine exists_congr fun definitions => and_congr_left fun _ => hdefines _ _ ?_
  rintro ⟨⟨id, formula, nested⟩, hline⟩ d
  cases nested with
  | none =>
      simp only [Except.ok.injEq]
      constructor
      · rintro rfl
        exact ⟨rfl, rfl, .none⟩
      · rintro ⟨hid, hformula, hnested⟩
        obtain ⟨id', formula', nested'⟩ := d
        simp only at hid hformula hnested
        cases hnested
        rw [hid, hformula]
  | some inner =>
      simp only [bind_eq_ok_iff, Except.ok.injEq]
      constructor
      · rintro ⟨created, hcreated, rfl⟩
        exact ⟨rfl, rfl, .some (build_eq_ok_iff.2 ⟨created, hcreated, rfl⟩)⟩
      · rintro ⟨hid, hformula, hnested⟩
        obtain ⟨id', formula', nested'⟩ := d
        simp only at hid hformula hnested
        cases hnested with
        | some hbuild =>
            obtain ⟨created, hcreated, hperform⟩ := build_eq_ok_iff.1 hbuild
            exact ⟨created, hcreated, by rw [hid, hformula, hperform]⟩

theorem exists_build {p : Plan α} {definitions : List (Definition α)}
    (hdefines : List.Forall₂ Defines p.lines definitions)
    (hcreate : ∃ t, Table.create p.config p.bindings definitions = .ok t) :
    ∃ t, p.build = .ok t := by
  obtain ⟨t, ht⟩ := hcreate
  refine ⟨p.calls.foldl Call.perform t, build_eq_ok_iff.2 ⟨t, ?_, rfl⟩⟩
  exact create_eq_ok_iff.2 ⟨definitions, hdefines, ht⟩

/-! ## A pouch -/

/-- Two gems to be found in a pouch, of which one is out of reach at first. -/
def gems {β : Type} [Zero β] [One β] (strategy : Strategy) : Plan β where
  config := { strategy, onMissingVariable := .fail, nested := true }
  bindings := .ofList [("gold", 0), ("luck", 1)]
  lines := [{ id := ⟨"ruby"⟩, formula := "luck", nested := none },
    { id := ⟨"pearl"⟩, formula := "gold", nested := none }]
  calls := []

/-- A pouch with gems in it next to a coin. -/
def pouch {β : Type} [Zero β] [One β] (outer inner : Strategy) (calls : List (Call β)) : Plan β where
  config := { strategy := outer, onMissingVariable := .fail, nested := true }
  bindings := .ofList [("luck", 1), ("room", 1)]
  lines := [{ id := ⟨"pouch"⟩, formula := "room", nested := some (gems inner) },
    { id := ⟨"coin"⟩, formula := "luck", nested := none }]
  calls

end Plan

end DropTable
