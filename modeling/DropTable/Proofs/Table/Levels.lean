import DropTable.Numeral.Binary64
import DropTable.Proofs.Table.History
import DropTable.Scalar.Binary64
/-!
# Every level of a tree follows its plan

A level of a tree is described by its plan alone: the bindings are the initial ones with all changes
written over them, the entries are the compiled lines in their arrangement, every weight is the
value of a program under the current bindings, and the slots of the sampler are effective weights,
current ones or those of the last rebuild.  A nested table follows a plan of its own, so that one
level carries the description to the next.
-/

namespace DropTable.Plan

variable {α : Type} [Scalar α] [Numeral α]

/-- What a plan says of the table that it builds, without the nested tables. -/
structure Describes (p : Plan α) (t : Table α) : Prop where
  config : t.config = p.config
  bindings : t.bindings = p.currentBindings
  entries : List.Forall₂ (fun line e => e.id = line.id ∧
    Program.compile line.formula = .ok e.program) p.arranged t.entries
  references : t.references = .ofPrograms (t.entries.map (·.program))
  weights : ∀ e ∈ t.entries,
    e.program.evaluate t.config.onMissingVariable t.bindings = .ok e.weight
  strategy : t.sampler.strategy = t.config.strategy
  size : t.sampler.size = t.entries.length
  slots : t.config.strategy ≠ .aliasBuckets → ∀ position,
    t.sampler.weight? position = t.entries[position]?.map fun e => Draw.effective e.weight
  settledSlots : t.config.strategy = .aliasBuckets → ∃ s, p.settled.build = .ok s ∧ ∀ position,
    t.sampler.weight? position = s.entries[position]?.map fun e => Draw.effective e.weight

theorem Builds.describes {p : Plan α} {t : Table α} (h : Builds p t) : Describes p t where
  config := h.config
  bindings := h.bindings
  entries := h.entries.imp fun _ _ hline => ⟨hline.id, hline.program⟩
  references := h.coherent.references
  weights := h.coherent.current
  strategy := h.coherent.slotted.strategy
  size := h.coherent.slotted.size
  slots := by
    intro hstrategy position
    rw [Sampler.weight?_eq, h.coherent.slotted.weights hstrategy, List.getElem?_map]
  settledSlots := by
    intro hstrategy
    obtain ⟨s, hbuild, hweights⟩ := h.settled (h.config ▸ hstrategy)
    refine ⟨s, hbuild, ?_⟩
    intro position
    rw [Sampler.weight?_eq, hweights, List.getElem?_map]

private theorem rel_bind_getElem? {β γ β' γ' : Type} {R : β → γ → Prop} {S : β' → γ' → Prop}
    {f : β → Option β'} {g : γ → Option γ'} (hfg : ∀ x y, R x y → Option.Rel S (f x) (g y))
    {xs : List β} {ys : List γ} (h : List.Forall₂ R xs ys) (index : Nat) :
    Option.Rel S (xs[index]?.bind f) (ys[index]?.bind g) := by
  induction h generalizing index with
  | nil => exact .none
  | cons hhead _ ih =>
      cases index with
      | zero => exact hfg _ _ hhead
      | succ index => exact ih index

theorem Builds.inner? {p : Plan α} {t : Table α} (h : Builds p t) (position : Nat) :
    Option.Rel (fun inner table => inner.build = .ok table) (p.inner? position)
      (t.entries[position]?.bind (·.nested)) := by
  have hnested := rel_bind_getElem? (fun _ _ hline => hline.nested) h.entries position
  unfold Plan.inner?
  generalize p.arranged[position]?.bind (·.nested) = inner at hnested ⊢
  generalize t.entries[position]?.bind (·.nested) = table at hnested ⊢
  cases hnested with
  | none => exact .none
  | some hbuild => exact .some hbuild

/-- The tree of tables has a level exactly where the tree of plans has one, and is as described
there. -/
theorem levels_of_build {p : Plan α} {t : Table α} (h : p.build = .ok t) (path : List Nat) :
    Option.Rel Describes (p.level? path) (t.level? path) := by
  induction path generalizing p t with
  | nil => exact .some (builds_of_build h).describes
  | cons position path ih =>
      have hinner := (builds_of_build h).inner? position
      rw [Plan.level?, Table.level?]
      generalize p.inner? position = inner at hinner ⊢
      generalize t.entries[position]?.bind (·.nested) = table at hinner ⊢
      cases hinner with
      | none => exact .none
      | some hbuild => exact ih hbuild

/-- A pouch with a ruby in it next to a coin, where only the latest change comes after a rebuild. -/
theorem levels_of_build_pouch :
    let inner : Plan Float :=
      { config := { strategy := .fenwick, onMissingVariable := .fail, nested := true }
        bindings := .ofList [("luck", 1)]
        lines := [{ id := ⟨"ruby"⟩, formula := "luck", nested := none }]
        calls := [] }
    let outer : Plan Float :=
      { config := { strategy := .aliasBuckets, onMissingVariable := .fail, nested := true }
        bindings := .ofList [("luck", 1)]
        lines := [{ id := ⟨"pouch"⟩, formula := "luck", nested := some inner },
          { id := ⟨"coin"⟩, formula := "1", nested := none }]
        calls := [.update "luck" 2, .rebuild, .update "luck" 3] }
    ∃ t, outer.build = .ok t ∧
      ∀ path, Option.Rel Describes (outer.level? path) (t.level? path) := by
  intro inner outer
  let luck : Program Float := ⟨[.identifier "luck" false]⟩
  let one : Float := Numeral.ofDecimal ⟨1, 0⟩
  have hluck : Program.compile "luck" = .ok luck := rfl
  have hone : Program.compile "1" = .ok (Program.constant one) := rfl
  obtain ⟨table, htable⟩ : ∃ table, inner.build = .ok table := by
    have hdefines : List.Forall₂ Defines inner.lines [⟨⟨"ruby"⟩, "luck", none⟩] :=
      .cons ⟨rfl, rfl, .none⟩ .nil
    have hcreate : ∃ t,
        Table.create inner.config inner.bindings [⟨⟨"ruby"⟩, "luck", none⟩] = .ok t :=
      ⟨_, Table.create_eq_ok_iff.2 ⟨by simp, [⟨⟨"ruby"⟩, luck, 0, none⟩],
        [⟨⟨"ruby"⟩, luck, 1, none⟩],
        .cons (Definition.compile_eq_ok_iff.2 ⟨rfl, hluck, rfl⟩) .nil,
        .cons (EntryOf.weigh_eq_ok_iff.2 ⟨rfl, rfl⟩) .nil, rfl⟩⟩
    exact exists_build hdefines hcreate
  obtain ⟨t, ht⟩ : ∃ t, outer.build = .ok t := by
    have hdefines : List.Forall₂ Defines outer.lines
        [⟨⟨"pouch"⟩, "luck", some table⟩, ⟨⟨"coin"⟩, "1", none⟩] :=
      .cons ⟨rfl, rfl, .some htable⟩ (.cons ⟨rfl, rfl, .none⟩ .nil)
    have hcreate : ∃ t, Table.create outer.config outer.bindings
        [⟨⟨"pouch"⟩, "luck", some table⟩, ⟨⟨"coin"⟩, "1", none⟩] = .ok t :=
      ⟨_, Table.create_eq_ok_iff.2 ⟨by simp,
        [⟨⟨"pouch"⟩, luck, 0, some table⟩, ⟨⟨"coin"⟩, .constant one, 0, none⟩],
        [⟨⟨"coin"⟩, .constant one, one, none⟩, ⟨⟨"pouch"⟩, luck, 1, some table⟩],
        .cons (Definition.compile_eq_ok_iff.2 ⟨rfl, hluck, rfl⟩)
          (.cons (Definition.compile_eq_ok_iff.2 ⟨rfl, hone, rfl⟩) .nil),
        .cons (EntryOf.weigh_eq_ok_iff.2 ⟨rfl, rfl⟩)
          (.cons (EntryOf.weigh_eq_ok_iff.2 ⟨rfl, rfl⟩) .nil), rfl⟩⟩
    exact exists_build hdefines hcreate
  exact ⟨t, ht, levels_of_build ht⟩

end DropTable.Plan
