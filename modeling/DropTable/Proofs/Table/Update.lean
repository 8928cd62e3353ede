import Mathlib.Data.List.Basic
import DropTable.Proofs.References
import DropTable.Proofs.Sampler.Slots
import DropTable.Table.Creation
import DropTable.Table.Update
/-!
# Changing a variable keeps a table coherent

In a coherent table every entry has the value of its program as its weight, and the sampler has the
effective weights of the entries in its slots, unless it ignores updates.  A change of a variable
re-evaluates the dependent entries alone.  It starts from weights that are stale at most at the
dependent positions, and each step takes one position off the stale ones.
-/

namespace DropTable

/-- All of an entry but its weight. -/
def EntryOf.frame {α τ : Type} (e : EntryOf α τ) : EntryId × Program α × Option τ :=
  (e.id, e.program, e.nested)

namespace Table

variable {α : Type}

/-- A table that differs from another at most in the weights of its entries and in its sampler. -/
structure SameFrame (t t' : Table α) : Prop where
  config : t'.config = t.config
  bindings : t'.bindings = t.bindings
  references : t'.references = t.references
  entries : t'.entries.map EntryOf.frame = t.entries.map EntryOf.frame

theorem SameFrame.refl (t : Table α) : t.SameFrame t := ⟨rfl, rfl, rfl, rfl⟩

theorem SameFrame.symm {t t' : Table α} (h : t.SameFrame t') : t'.SameFrame t :=
  ⟨h.config.symm, h.bindings.symm, h.references.symm, h.entries.symm⟩

theorem SameFrame.trans {t t' t'' : Table α} (h : t.SameFrame t') (h' : t'.SameFrame t'') :
    t.SameFrame t'' :=
  ⟨h'.config.trans h.config, h'.bindings.trans h.bindings, h'.references.trans h.references,
    h'.entries.trans h.entries⟩

theorem SameFrame.programs {t t' : Table α} (h : t.SameFrame t') :
    t'.entries.map (·.program) = t.entries.map (·.program) := by
  have hprograms := congrArg (List.map fun frame => frame.2.1) h.entries
  simpa [List.map_map, Function.comp_def, EntryOf.frame] using hprograms

private theorem sameFrame_set {t : Table α} {position : Nat} {e : Entry α}
    (he : t.entries[position]? = some e) (e' : Entry α) (hframe : e'.frame = e.frame)
    (sampler : Sampler α) :
    t.SameFrame { t with entries := t.entries.set position e', sampler } := by
  refine ⟨rfl, rfl, rfl, ?_⟩
  obtain ⟨hposition, rfl⟩ := List.getElem?_eq_some_iff.1 he
  have hlength : position < (t.entries.map EntryOf.frame).length := by simpa using hposition
  have hget : (t.entries.map EntryOf.frame)[position] = t.entries[position].frame :=
    List.getElem_map EntryOf.frame
  rw [List.map_set, hframe, ← hget, List.set_getElem_self]

variable [Scalar α] [Numeral α]

/-- Reweighs positions in order. -/
def reweighAll (t : Table α) (positions : List Nat) : Table α :=
  positions.foldl (fun t position => (t.reweigh position).1) t

theorem assign_fst (t : Table α) (name : String) (value : α) :
    (t.assign name value).1 =
      reweighAll { t with bindings := t.bindings.insert name value }
        (t.references.dependents name) := by
  exact (List.foldl_hom Prod.fst fun _ _ => rfl).symm

/-- The value of an entry's program in a table. -/
def value (t : Table α) (e : Entry α) : Except Fault α :=
  e.program.evaluate t.config.onMissingVariable t.bindings

/-- The sampler belongs to the strategy of its table and follows the weights of the entries if it
can. -/
structure Slotted (t : Table α) : Prop where
  strategy : t.sampler.strategy = t.config.strategy
  size : t.sampler.size = t.entries.length
  weights : t.config.strategy ≠ .aliasBuckets →
    t.sampler.weights = t.entries.map fun e => Draw.effective e.weight

/-- A table in the middle of a change: programs have values, and weights are those values except at
stale positions. -/
structure Stale (t : Table α) (positions : List Nat) : Prop where
  evaluable : ∀ e ∈ t.entries, ∃ weight, t.value e = .ok weight
  current : ∀ position e, t.entries[position]? = some e → position ∉ positions →
    t.value e = .ok e.weight

theorem reweigh_of_value {t : Table α} {position : Nat} {e : Entry α} {weight : α}
    (he : t.entries[position]? = some e) (hvalue : t.value e = .ok weight) :
    t.reweigh position =
      ({ t with
          entries := t.entries.set position { e with weight }
          sampler := t.sampler.update position weight }, []) := by
  have hevaluate : e.program.evaluate t.config.onMissingVariable t.bindings = .ok weight := hvalue
  simp [reweigh, he, EntryOf.weigh, hevaluate]

theorem reweigh_of_none {t : Table α} {position : Nat} (hnone : t.entries[position]? = none) :
    t.reweigh position = (t, []) := by
  simp [reweigh, hnone]

/-- What one step of a change does: nothing past the end, and otherwise one entry and its slot get
the value of the entry's program. -/
theorem Stale.reweigh_cases {t : Table α} {position : Nat} {positions : List Nat}
    (h : t.Stale (position :: positions)) :
    (t.entries[position]? = none ∧ t.reweigh position = (t, [])) ∨
      ∃ e weight, t.entries[position]? = some e ∧ t.value e = .ok weight ∧
        t.reweigh position =
          ({ t with
              entries := t.entries.set position { e with weight }
              sampler := t.sampler.update position weight }, []) := by
  cases he : t.entries[position]? with
  | none => exact .inl ⟨rfl, reweigh_of_none he⟩
  | some e =>
      obtain ⟨weight, hvalue⟩ := h.evaluable e (List.mem_of_getElem? he)
      exact .inr ⟨e, weight, rfl, hvalue, reweigh_of_value he hvalue⟩

theorem Stale.sameFrame_reweigh {t : Table α} {position : Nat} {positions : List Nat}
    (h : t.Stale (position :: positions)) : t.SameFrame (t.reweigh position).1 := by
  obtain ⟨-, hreweigh⟩ | ⟨e, weight, he, -, hreweigh⟩ := h.reweigh_cases
  · rw [hreweigh]
    exact .refl t
  · rw [hreweigh]
    exact sameFrame_set he { e with weight } rfl _

theorem Stale.reweigh {t : Table α} {position : Nat} {positions : List Nat}
    (h : t.Stale (position :: positions)) : (t.reweigh position).1.Stale positions := by
  obtain ⟨hnone, hreweigh⟩ | ⟨e, weight, he, hvalue, hreweigh⟩ := h.reweigh_cases
  · rw [hreweigh]
    refine ⟨h.evaluable, ?_⟩
    intro i e he hi
    apply h.current i e he
    intro hmem
    rcases List.mem_cons.1 hmem with rfl | hlater
    · rw [hnone] at he
      contradiction
    · exact hi hlater
  · rw [hreweigh]
    refine ⟨?_, ?_⟩
    · intro e' he'
      rcases List.mem_or_eq_of_mem_set he' with hold | rfl
      · exact h.evaluable e' hold
      · exact ⟨weight, hvalue⟩
    · intro i e' he' hi
      by_cases hposition : position = i
      · subst hposition
        have hlt : position < t.entries.length := (List.getElem?_eq_some_iff.1 he).1
        rw [List.getElem?_set_self hlt, Option.some.injEq] at he'
        subst he'
        exact hvalue
      · rw [List.getElem?_set_ne hposition] at he'
        exact h.current i e' he' (by simp [hi, Ne.symm hposition])

private theorem Stale.slotted_reweigh {t : Table α} {position : Nat} {positions : List Nat}
    (h : t.Stale (position :: positions)) (hslots : t.Slotted) :
    (t.reweigh position).1.Slotted := by
  obtain ⟨-, hreweigh⟩ | ⟨e, weight, -, -, hreweigh⟩ := h.reweigh_cases
  · rw [hreweigh]
    exact hslots
  · rw [hreweigh]
    refine ⟨(Sampler.strategy_update _ _ _).trans hslots.strategy, ?_, ?_⟩
    · rw [Sampler.size_update, List.length_set]
      exact hslots.size
    · intro hstrategy
      have hsampler : t.sampler.strategy ≠ .aliasBuckets := by
        rw [hslots.strategy]
        exact hstrategy
      rw [Sampler.weights_update hsampler, hslots.weights hstrategy, List.map_set]

private theorem Stale.sampler_reweigh {t : Table α} {position : Nat} {positions : List Nat}
    (h : t.Stale (position :: positions)) (hsampler : t.sampler.strategy = .aliasBuckets) :
    (t.reweigh position).1.sampler = t.sampler := by
  obtain ⟨-, hreweigh⟩ | ⟨e, weight, -, -, hreweigh⟩ := h.reweigh_cases
  · rw [hreweigh]
  · rw [hreweigh]
    exact Sampler.update_aliasBuckets hsampler position weight

/-! ## Runs of steps -/

theorem Stale.reweighAll {t : Table α} {positions : List Nat} (h : t.Stale positions) :
    t.SameFrame (t.reweighAll positions) ∧ (t.reweighAll positions).Stale [] := by
  induction positions generalizing t with
  | nil => exact ⟨.refl t, h⟩
  | cons position positions ih =>
      obtain ⟨hframe, hstale⟩ := ih h.reweigh
      exact ⟨h.sameFrame_reweigh.trans hframe, hstale⟩

private theorem Stale.slotted_reweighAll {t : Table α} {positions : List Nat}
    (h : t.Stale positions) (hslots : t.Slotted) : (t.reweighAll positions).Slotted := by
  induction positions generalizing t with
  | nil => exact hslots
  | cons position positions ih => exact ih h.reweigh (h.slotted_reweigh hslots)

private theorem Stale.sampler_reweighAll {t : Table α} {positions : List Nat}
    (h : t.Stale positions) (hsampler : t.sampler.strategy = .aliasBuckets) :
    (t.reweighAll positions).sampler = t.sampler := by
  induction positions generalizing t with
  | nil => rfl
  | cons position positions ih =>
      have hstep := h.sampler_reweigh hsampler
      exact (ih h.reweigh (by rw [hstep, hsampler])).trans hstep

/-! ## Coherent tables -/

/-- Weights, references and slots all follow from the programs and the bindings. -/
structure Coherent (t : Table α) : Prop where
  current : ∀ e ∈ t.entries, t.value e = .ok e.weight
  references : t.references = .ofPrograms (t.entries.map (·.program))
  slotted : t.Slotted

theorem Coherent.stale_insert {t : Table α} (h : t.Coherent) (name : String) (value : α) :
    Stale { t with bindings := t.bindings.insert name value } (t.references.dependents name) where
  evaluable := by
    intro e he
    apply Program.evaluate_mono _ (h.current e he)
    intro other hother
    exact Std.ExtTreeMap.mem_insert.2 (.inr hother)
  current := by
    intro position e he hposition
    have hrefers : e.program.references name = false := by
      rw [← Bool.not_eq_true]
      intro hrefers
      apply hposition
      rw [h.references, References.mem_dependents_ofPrograms]
      exact ⟨e.program, by simp [he], hrefers⟩
    rw [← h.current e (List.mem_of_getElem? he)]
    apply Program.evaluate_congr
    intro other hother
    have hne : compare name other ≠ .eq := by
      intro heq
      rw [Std.LawfulEqCmp.eq_of_compare heq, hother] at hrefers
      contradiction
    simp [Std.ExtTreeMap.getElem?_insert, hne]

/-- An entry with a change passed on to the table it carries, and the faults found in there. -/
def enter (name : String) (value : α) (e : Entry α) : Entry α × List Fault :=
  match e.nested with
  | none => (e, [])
  | some nested =>
    ({ e with nested := some (nested.update name value).1 },
      (nested.update name value).2.map (.inEntry e.id))

/-- The entry with a change passed on to the table it carries. -/
def passOn (name : String) (value : α) (e : Entry α) : Entry α :=
  { e with nested := e.nested.map fun inner => (inner.update name value).1 }

private theorem enter_fst (name : String) (value : α) (e : Entry α) :
    (enter name value e).1 = passOn name value e := by
  unfold enter passOn
  obtain ⟨id, program, weight, nested⟩ := e
  cases nested <;> rfl

theorem update_eq (t : Table α) (name : String) (value : α) :
    t.update name value =
      let changed := { t with entries := t.entries.map (passOn name value) }.assign name value
      (changed.1, changed.2 ++ t.entries.flatMap fun e => (enter name value e).2) := by
  have hinner : ∀ f : { e // e ∈ t.entries } → Entry α × List Fault,
      (∀ e, f e = enter name value e.val) →
      t.entries.attach.map f = t.entries.map (enter name value) := by
    intro f hf
    calc t.entries.attach.map f = t.entries.attach.map fun e => enter name value e.val :=
          List.map_congr_left fun e _ => hf e
      _ = t.entries.map (enter name value) := List.attach_map_val
  rw [Table.update, hinner]
  · simp only [List.map_map, List.flatMap_map, Function.comp_def, enter_fst]
  · rintro ⟨⟨id, program, weight, nested⟩, he⟩
    cases nested <;> rfl

theorem Coherent.passOn {t : Table α} (h : t.Coherent) (name : String) (value : α) :
    Coherent { t with entries := t.entries.map (passOn name value) } where
  current := by
    intro e' he'
    obtain ⟨e, he, rfl⟩ := List.mem_map.1 he'
    exact h.current e he
  references := by
    rw [List.map_map]
    exact h.references
  slotted := by
    refine ⟨h.slotted.strategy, ?_, ?_⟩
    · rw [List.length_map]
      exact h.slotted.size
    · intro hstrategy
      rw [List.map_map]
      exact h.slotted.weights hstrategy

/-- What a change does to a coherent table. -/
structure Changed (name : String) (value : α) (t t' : Table α) : Prop where
  config : t'.config = t.config
  bindings : t'.bindings = t.bindings.insert name value
  entries : t'.entries.map EntryOf.frame = t.entries.map fun e => (passOn name value e).frame
  sampler : t.config.strategy = .aliasBuckets → t'.sampler = t.sampler

theorem Coherent.changed_update {t : Table α} (h : t.Coherent) (name : String) (value : α) :
    Changed name value t (t.update name value).1 := by
  have hstale := (h.passOn name value).stale_insert name value
  obtain ⟨hframe, -⟩ := hstale.reweighAll
  rw [update_eq, assign_fst]
  refine ⟨hframe.config, hframe.bindings, ?_, ?_⟩
  · rw [hframe.entries, List.map_map]
    rfl
  · intro hstrategy
    exact hstale.sampler_reweighAll (h.slotted.strategy.trans hstrategy)

theorem Coherent.update {t : Table α} (h : t.Coherent) (name : String) (value : α) :
    (t.update name value).1.Coherent := by
  have hpassed := h.passOn name value
  have hstale := hpassed.stale_insert name value
  obtain ⟨hframe, hcurrent⟩ := hstale.reweighAll
  rw [update_eq, assign_fst]
  refine ⟨?_, ?_, hstale.slotted_reweighAll ?_⟩
  · intro e he
    obtain ⟨position, hposition⟩ := List.getElem?_of_mem he
    exact hcurrent.current position e hposition (by simp)
  · rw [hframe.references, hframe.programs]
    exact hpassed.references
  · exact ⟨hpassed.slotted.strategy, hpassed.slotted.size, hpassed.slotted.weights⟩

theorem Coherent.rebuild {t : Table α} (h : t.Coherent) : t.rebuild.Coherent where
  current := h.current
  references := h.references
  slotted := by
    refine ⟨Sampler.strategy_build _ _, ?_, ?_⟩
    · simp [Table.rebuild, Sampler.size_eq]
    · intro _
      simp [Table.rebuild]

theorem coherent_ofEntries {config : Config} {bindings : Bindings α} {entries : List (Entry α)}
    (h : ∀ e ∈ entries, e.program.evaluate config.onMissingVariable bindings = .ok e.weight) :
    (ofEntries config bindings entries).Coherent where
  current := h
  references := rfl
  slotted := by
    refine ⟨Sampler.strategy_build _ _, ?_, ?_⟩
    · simp [ofEntries, Sampler.size_eq]
    · intro _
      simp [ofEntries]

end Table

end DropTable
