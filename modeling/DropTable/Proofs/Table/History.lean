import DropTable.Proofs.Table.Plan
import DropTable.Proofs.Table.Update
/-!
# A table after calls

The plan of a table says what calls have made of it.  One call on a table appends itself to the
plan, and is received by the plans of all nested tables if it changes a variable.  What is read off
the initial lines and the calls stays true of the table through every run of calls.
-/

namespace DropTable.Plan

variable {α : Type}

theorem receive_nil (p : Plan α) : p.receive [] = p := by
  cases p
  simp [receive]

theorem receive_concat (p : Plan α) (calls : List (Call α)) (call : Call α) :
    p.receive (calls ++ [call]) =
      if call.isUpdate then { p with calls := (p.receive calls).calls ++ [call] }
      else p.receive calls := by
  cases h : call.isUpdate <;> simp [receive, h]

theorem currentBindings_concat (p : Plan α) (call : Call α) :
    ({ p with calls := p.calls ++ [call] } : Plan α).currentBindings =
      match call with
      | .update name value => p.currentBindings.insert name value
      | .rebuild => p.currentBindings := by
  cases call <;> simp [currentBindings, List.filterMap_cons, Call.assignment?]

variable [Scalar α] [Numeral α]

theorem create_calls (p : Plan α) (calls : List (Call α)) :
    ({ p with calls } : Plan α).create = p.create := by
  rw [create, create]

theorem build_concat (p : Plan α) (call : Call α) :
    ({ p with calls := p.calls ++ [call] } : Plan α).build =
      p.build.map fun t => call.perform t := by
  unfold build
  rw [create_calls]
  cases p.create <;> simp [Except.map]

/-! ## Entries and lines -/

/-- An entry that stands for a line after calls on the table. -/
structure Realizes (calls : List (Call α)) (line : Line (Plan α)) (e : Entry α) : Prop where
  id : e.id = line.id
  program : Program.compile line.formula = .ok e.program
  nested : Option.Rel (fun inner table => (inner.receive calls).build = .ok table)
    line.nested e.nested

private theorem Realizes.of_frame {calls : List (Call α)} {line : Line (Plan α)} {e e' : Entry α}
    (h : Realizes calls line e) (hframe : e'.frame = e.frame) : Realizes calls line e' := by
  simp only [EntryOf.frame, Prod.mk.injEq] at hframe
  obtain ⟨hid, hprogram, hnested⟩ := hframe
  exact ⟨hid.trans h.id, hprogram ▸ h.program, hnested ▸ h.nested⟩

theorem Realizes.update {calls : List (Call α)} {line : Line (Plan α)} {e : Entry α}
    (h : Realizes calls line e) (name : String) (value : α) :
    Realizes (calls ++ [.update name value]) line (Table.passOn name value e) where
  id := h.id
  program := h.program
  nested := by
    obtain ⟨id, program, weight, nested⟩ := e
    obtain ⟨id', formula, nested'⟩ := line
    have hnested := h.nested
    cases hnested with
    | none => exact .none
    | some hbuild =>
        refine .some ?_
        rw [receive_concat]
        exact (build_concat _ _).trans (by rw [hbuild]; rfl)

theorem Realizes.rebuild {calls : List (Call α)} {line : Line (Plan α)} {e : Entry α}
    (h : Realizes calls line e) : Realizes (calls ++ [.rebuild]) line e where
  id := h.id
  program := h.program
  nested := by
    simpa [receive_concat, Call.isUpdate] using h.nested

private theorem Realizes.of_compile {line : Line (Plan α)} {d : Definition α} {e : Entry α}
    (hline : Defines line d) (hcompile : d.compile = .ok e) : Realizes [] line e := by
  obtain ⟨-, hprogram, he⟩ := Definition.compile_eq_ok_iff.1 hcompile
  rw [hline.formula] at hprogram
  rw [he]
  refine ⟨hline.id, hprogram, ?_⟩
  simpa only [receive_nil] using hline.nested

theorem realizes_arrange {p : Plan α} {definitions : List (Definition α)}
    {compiled : List (Entry α)} (hlines : List.Forall₂ Defines p.lines definitions)
    (hcompiled : List.Forall₂ (fun d e => d.compile = .ok e) definitions compiled) :
    List.Forall₂ (Realizes []) p.arranged (Table.arrange compiled) := by
  have hrealized : List.Forall₂ (Realizes []) p.lines compiled := by
    refine forall₂_trans ?_ hlines hcompiled
    intro line d e hline hcompile
    exact .of_compile hline hcompile
  exact forall₂_arrangeBy (fun _ _ hline => hline.program) hrealized

/-! ## Runs of calls -/

/-- What a plan and the table that it builds have to do with each other. -/
structure Builds (p : Plan α) (t : Table α) : Prop where
  coherent : t.Coherent
  config : t.config = p.config
  bindings : t.bindings = p.currentBindings
  entries : List.Forall₂ (Realizes p.calls) p.arranged t.entries
  settled : p.config.strategy = .aliasBuckets →
    ∃ s, p.settled.build = .ok s ∧
      t.sampler.weights = s.entries.map fun e => Draw.effective e.weight

theorem Builds.create {p : Plan α} {t : Table α} (h : p.create = .ok t) :
    Builds { p with calls := [] } t := by
  obtain ⟨definitions, hlines, hcreate⟩ := create_eq_ok_iff.1 h
  obtain ⟨-, compiled, weighed, hcompiled, hweighed, rfl⟩ := Table.create_eq_ok_iff.1 hcreate
  have harranged := realizes_arrange hlines hcompiled
  have hentries : List.Forall₂ (Realizes []) p.arranged weighed := by
    refine forall₂_trans ?_ harranged hweighed
    intro line e w hline hw
    obtain ⟨-, hw⟩ := EntryOf.weigh_eq_ok_iff.1 hw
    exact hline.of_frame (by rw [hw]; rfl)
  have hvalues : ∀ w ∈ weighed,
      w.program.evaluate p.config.onMissingVariable p.bindings = .ok w.weight := by
    refine forall_mem_of_forall₂ ?_ hweighed
    intro e w hw
    obtain ⟨hvalue, hw⟩ := EntryOf.weigh_eq_ok_iff.1 hw
    rw [hw]
    exact hvalue
  refine ⟨Table.coherent_ofEntries hvalues, rfl, rfl, hentries,
    fun _ => ⟨Table.ofEntries p.config p.bindings weighed, ?_, ?_⟩⟩
  · exact build_eq_ok_iff.2 ⟨_, (create_calls p _).trans h, rfl⟩
  · simp [Table.ofEntries]

theorem Builds.update {p : Plan α} {t : Table α} (h : Builds p t) (name : String) (value : α) :
    Builds { p with calls := p.calls ++ [.update name value] } (t.update name value).1 := by
  have hchanged := h.coherent.changed_update name value
  refine ⟨h.coherent.update name value, hchanged.config.trans h.config, ?_, ?_, ?_⟩
  · rw [currentBindings_concat, hchanged.bindings, h.bindings]
  · have hpassed : List.Forall₂ (Realizes (p.calls ++ [.update name value])) p.arranged
        (t.entries.map (Table.passOn name value)) := by
      rw [List.forall₂_map_right_iff]
      exact h.entries.imp fun _ _ hline => hline.update name value
    have hframes : List.Forall₂ Eq ((t.entries.map (Table.passOn name value)).map EntryOf.frame)
        ((t.update name value).1.entries.map EntryOf.frame) := by
      rw [List.forall₂_eq_eq_eq, hchanged.entries, List.map_map]
      rfl
    rw [List.forall₂_map_left_iff, List.forall₂_map_right_iff] at hframes
    refine forall₂_trans ?_ hpassed hframes
    intro line e e' hline hframe
    exact hline.of_frame hframe.symm
  · intro hstrategy
    obtain ⟨s, hbuild, hweights⟩ := h.settled hstrategy
    refine ⟨s, ?_, ?_⟩
    · rw [Plan.settled, List.rdropWhile_concat_pos _ _ _ rfl]
      exact hbuild
    · rw [hchanged.sampler (by rw [h.config]; exact hstrategy)]
      exact hweights

theorem Builds.rebuild {p : Plan α} {t : Table α} (h : Builds p t) (hbuild : p.build = .ok t) :
    Builds { p with calls := p.calls ++ [.rebuild] } t.rebuild := by
  refine ⟨h.coherent.rebuild, h.config, ?_, ?_, fun _ => ⟨t.rebuild, ?_, ?_⟩⟩
  · rw [currentBindings_concat]
    exact h.bindings
  · exact h.entries.imp fun _ _ hline => hline.rebuild
  · rw [Plan.settled, List.rdropWhile_concat_neg _ _ _ (by simp [Call.isUpdate])]
    exact (build_concat p .rebuild).trans (by rw [hbuild]; rfl)
  · simp [Table.rebuild]

theorem builds_of_build {p : Plan α} {t : Table α} (h : p.build = .ok t) : Builds p t := by
  obtain ⟨config, bindings, lines, calls⟩ := p
  induction calls using List.reverseRecOn generalizing t with
  | nil =>
      obtain ⟨created, hcreate, rfl⟩ := build_eq_ok_iff.1 h
      exact Builds.create hcreate
  | append_singleton calls call ih =>
      have hconcat := build_concat ⟨config, bindings, lines, calls⟩ call
      obtain ⟨before, hbefore, rfl⟩ := exists_of_map_eq_ok (hconcat.symm.trans h)
      cases call with
      | update name value => exact (ih hbefore).update name value
      | rebuild => exact (ih hbefore).rebuild hbefore

end DropTable.Plan
