import DropTable.Proofs.Table.History
/-!
# Tables created afresh

A plan is renewed by starting every level with the bindings it has in the end and making no calls.
The renewed plan builds the same entries with the same weights and bindings, and a sampler that is
built from those weights at every level.  So the two tables differ at most in samplers that are not
what their weights would give, and a tree without such levels is the one that is created afresh.
-/

namespace DropTable

namespace Table

variable {α : Type}

/-- Whether every level of a tree has a property. -/
def Everywhere (P : Table α → Prop) (t : Table α) : Prop :=
  ∀ path level, t.level? path = some level → P level

/-- To prove something of a table, it may be assumed of the tables that its entries carry. -/
@[elab_as_elim]
theorem nested_induction {motive : Table α → Prop}
    (step : ∀ t, (∀ e ∈ t.entries, ∀ inner, e.nested = some inner → motive inner) → motive t)
    (t : Table α) : motive t :=
  step t fun _ _he inner _hinner => nested_induction step inner
termination_by sizeOf t
decreasing_by exact sizeOf_nested_lt _he _hinner

theorem everywhere_iff {P : Table α → Prop} {t : Table α} :
    t.Everywhere P ↔
      P t ∧ ∀ e ∈ t.entries, ∀ inner, e.nested = some inner → inner.Everywhere P := by
  constructor
  · intro h
    refine ⟨h [] t rfl, ?_⟩
    intro e he inner hinner path level hlevel
    obtain ⟨position, hposition⟩ := List.getElem?_of_mem he
    apply h (position :: path)
    simp [level?, hposition, hinner, hlevel]
  · intro h path level hlevel
    cases path with
    | nil =>
        cases hlevel
        exact h.1
    | cons position path =>
        obtain ⟨inner, hinner, hlevel⟩ := Option.bind_eq_some_iff.1 hlevel
        obtain ⟨e, he, hinner⟩ := Option.bind_eq_some_iff.1 hinner
        exact h.2 e (List.mem_of_getElem? he) inner hinner path level hlevel

/-- Whether every level of a tree passes a check. -/
def all (check : Table α → Bool) (t : Table α) : Bool :=
  check t && t.entries.attach.all fun ⟨e, _⟩ =>
    match _h : e.nested with
    | none => true
    | some inner => inner.all check
termination_by sizeOf t
decreasing_by exact sizeOf_nested_lt ‹_› ‹_›

private theorem all_iff {check : Table α → Bool} {t : Table α} :
    t.all check = true ↔ t.Everywhere fun level => check level = true := by
  induction t using nested_induction with
  | step t ih =>
      rw [everywhere_iff, all, Bool.and_eq_true, List.all_eq_true]
      refine and_congr_right fun _ => ⟨?_, ?_⟩
      · rintro h ⟨id, program, weight, nested⟩ he inner hinner
        have hall := h ⟨_, he⟩ (List.mem_attach _ _)
        simp only at hinner
        subst hinner
        exact (ih _ he inner rfl).1 hall
      · rintro h ⟨⟨id, program, weight, nested⟩, he⟩ -
        cases nested with
        | none => rfl
        | some inner => exact (ih _ he inner rfl).2 (h _ he inner rfl)

instance {P : Table α → Prop} [DecidablePred P] (t : Table α) : Decidable (t.Everywhere P) :=
  decidable_of_iff (t.all fun level => P level) (by simp [all_iff])

variable [Scalar α]

/-- Whether the sampler is what the weights of the entries give. -/
def Current (t : Table α) : Prop :=
  t.sampler = .build t.config.strategy (t.entries.map (·.weight))

/-- The table with the samplers of all levels built anew. -/
def refresh (t : Table α) : Table α :=
  { t with
      entries := t.entries.attach.map fun ⟨e, _⟩ =>
        match _h : e.nested with
        | none => e
        | some inner => { e with nested := some inner.refresh }
      sampler := .build t.config.strategy (t.entries.map (·.weight)) }
termination_by sizeOf t
decreasing_by exact sizeOf_nested_lt ‹_› ‹_›

/-- An entry with the table that it carries refreshed. -/
def refreshEntry (e : Entry α) : Entry α :=
  { e with nested := e.nested.map refresh }

theorem refresh_eq (t : Table α) :
    t.refresh =
      { t with
          entries := t.entries.map refreshEntry
          sampler := .build t.config.strategy (t.entries.map (·.weight)) } := by
  have hentries : ∀ f : { e // e ∈ t.entries } → Entry α, (∀ e, f e = refreshEntry e.val) →
      t.entries.attach.map f = t.entries.map refreshEntry := by
    intro f hf
    calc t.entries.attach.map f = t.entries.attach.map fun e => refreshEntry e.val :=
          List.map_congr_left fun e _ => hf e
      _ = t.entries.map refreshEntry := List.attach_map_val
  rw [refresh, hentries]
  rintro ⟨⟨id, program, weight, nested⟩, he⟩
  cases nested <;> rfl

theorem map_eq_self_iff {β : Type} {f : β → β} {xs : List β} :
    xs.map f = xs ↔ ∀ x ∈ xs, f x = x := by
  conv_lhs => rw [← List.map_id xs, List.map_map]
  exact List.map_inj_left

private theorem refreshEntry_eq_self_iff {e : Entry α} :
    refreshEntry e = e ↔ ∀ inner, e.nested = some inner → inner.refresh = inner := by
  obtain ⟨id, program, weight, nested⟩ := e
  cases nested <;> simp [refreshEntry]

theorem refresh_eq_self_iff (t : Table α) : t.refresh = t ↔ t.Everywhere Current := by
  induction t using nested_induction with
  | step t ih =>
      have hentries : t.entries.map refreshEntry = t.entries ↔
          ∀ e ∈ t.entries, ∀ inner, e.nested = some inner → inner.Everywhere Current := by
        rw [map_eq_self_iff]
        refine forall₂_congr fun e he => ?_
        rw [refreshEntry_eq_self_iff]
        exact forall₂_congr fun inner hinner => ih e he inner hinner
      rw [everywhere_iff, ← hentries, refresh_eq]
      obtain ⟨entries, bindings, references, sampler, config⟩ := t
      simp only [Table.mk.injEq, true_and, and_true, Current]
      rw [and_comm, eq_comm (a := sampler)]

theorem rebuild_eq_refresh_iff [Numeral α] (t : Table α) :
    t.rebuild = t.refresh ↔
      ∀ e ∈ t.entries, ∀ inner, e.nested = some inner → inner.Everywhere Current := by
  have hentries : t.rebuild = t.refresh ↔ t.entries = t.entries.map refreshEntry := by
    rw [refresh_eq]
    simp [rebuild]
  rw [hentries, eq_comm, map_eq_self_iff]
  refine forall₂_congr fun e _ => ?_
  rw [refreshEntry_eq_self_iff]
  exact forall₂_congr fun inner _ => refresh_eq_self_iff inner

private theorem Coherent.ofEntries_refreshEntry [Numeral α] {t : Table α} (h : t.Coherent) :
    ofEntries t.config t.bindings (t.entries.map refreshEntry) = t.refresh := by
  have hprograms : (t.entries.map refreshEntry).map (·.program) = t.entries.map (·.program) := by
    simp [refreshEntry]
  have hweights : (t.entries.map refreshEntry).map (·.weight) = t.entries.map (·.weight) := by
    simp [refreshEntry]
  rw [refresh_eq, ofEntries, hprograms, hweights, ← h.references]

end Table

/-! ## Renewed plans -/

variable {α : Type}

namespace Plan

private theorem sizeOf_lines_receive_lt {p inner : Plan α} {line : Line (Plan α)}
    (hline : line ∈ p.lines) (hinner : line.nested = some inner) (calls : List (Call α)) :
    sizeOf (inner.receive calls).lines < sizeOf p.lines := by
  have hlines := List.sizeOf_lt_of_mem hline
  cases line
  cases inner
  simp only at hinner
  subst hinner
  simp only [receive, Line.mk.sizeOf_spec, Option.some.sizeOf_spec, Plan.mk.sizeOf_spec] at *
  omega

/-- The plan that starts every level with the bindings that it has after all calls, and makes no
calls. -/
def renewed (p : Plan α) : Plan α :=
  { config := p.config
    bindings := p.currentBindings
    lines := p.lines.attach.map fun ⟨line, _⟩ =>
      { line with
          nested := match _h : line.nested with
            | none => none
            | some inner => some (inner.receive p.calls).renewed }
    calls := [] }
termination_by sizeOf p.lines
decreasing_by exact sizeOf_lines_receive_lt ‹_› ‹_› _

/-- A line with the plan of its table renewed, which has received some calls. -/
def renewLine (calls : List (Call α)) (line : Line (Plan α)) : Line (Plan α) :=
  { line with nested := line.nested.map fun inner => (inner.receive calls).renewed }

theorem renewed_eq (p : Plan α) :
    p.renewed =
      { config := p.config
        bindings := p.currentBindings
        lines := p.lines.map (renewLine p.calls)
        calls := [] } := by
  have hlines : ∀ f : { line // line ∈ p.lines } → Line (Plan α),
      (∀ line, f line = renewLine p.calls line.val) →
      p.lines.attach.map f = p.lines.map (renewLine p.calls) := by
    intro f hf
    calc p.lines.attach.map f = p.lines.attach.map fun line => renewLine p.calls line.val :=
          List.map_congr_left fun line _ => hf line
      _ = p.lines.map (renewLine p.calls) := List.attach_map_val
  rw [renewed, hlines]
  rintro ⟨⟨id, formula, nested⟩, hline⟩
  cases nested <;> rfl

/-- To prove something of a plan, it may be assumed of the plans of nested tables. -/
@[elab_as_elim]
theorem nested_induction {motive : Plan α → Prop}
    (step : ∀ p : Plan α, (∀ line ∈ p.lines, ∀ inner, line.nested = some inner →
      motive (inner.receive p.calls)) → motive p)
    (p : Plan α) : motive p :=
  step p fun _ _hline inner _hinner => nested_induction step (inner.receive p.calls)
termination_by sizeOf p.lines
decreasing_by exact sizeOf_lines_receive_lt _hline _hinner _

end Plan

variable [Scalar α] [Numeral α]

namespace Plan

private theorem arranged_renewed (p : Plan α) :
    p.renewed.arranged = p.arranged.map (renewLine p.calls) := by
  rw [renewed_eq]
  exact arrangeBy_map p.lines

theorem mem_arranged {p : Plan α} {line : Line (Plan α)} : line ∈ p.arranged ↔ line ∈ p.lines :=
  (arrangeBy_perm p.lines).mem_iff

theorem Builds.forall_entries {p : Plan α} {t : Table α} (h : Builds p t)
    {P : Line (Plan α) → Prop} {Q : Entry α → Prop} (hlines : ∀ line ∈ p.lines, P line)
    (hentry : ∀ line e, P line → Realizes p.calls line e → Q e) : ∀ e ∈ t.entries, Q e := by
  have harranged : ∀ line ∈ p.arranged, P line := fun line hline => hlines line (mem_arranged.1 hline)
  refine forall_mem_of_forall₂ ?_ ((List.forall₂_and_left _ _).2 ⟨harranged, h.entries⟩)
  rintro line e ⟨hline, he⟩
  exact hentry line e hline he

theorem id_of_build {p : Plan α} {t : Table α} (h : p.build = .ok t) :
    p.lines ≠ [] ∧ ∀ line ∈ p.lines, line.id.isNone = false := by
  obtain ⟨created, hcreate, -⟩ := build_eq_ok_iff.1 h
  obtain ⟨definitions, hlines, hcreate⟩ := create_eq_ok_iff.1 hcreate
  obtain ⟨hne, compiled, -, hcompiled, -⟩ := Table.create_eq_ok_iff.1 hcreate
  refine ⟨?_, ?_⟩
  · rintro hnil
    rw [hnil, List.forall₂_nil_left_iff] at hlines
    exact hne hlines
  · have hnamed : List.Forall₂ (fun line _ => line.id.isNone = false) p.lines compiled := by
      refine forall₂_trans ?_ hlines hcompiled
      intro line d e hline hcompile
      rw [← hline.id]
      exact (Definition.compile_eq_ok_iff.1 hcompile).1
    exact forall_mem_of_forall₂ (R := fun _ line => line.id.isNone = false) (fun _ _ hid => hid)
      hnamed.flip

private theorem exists_of_forall₂ {β γ : Type} {R : β → γ → Prop} {xs : List β} {ys : List γ}
    (h : List.Forall₂ R xs ys) : ∀ x ∈ xs, ∃ y, R x y :=
  forall_mem_of_forall₂ (fun y _ hxy => ⟨y, hxy⟩) h.flip

/-- Whether the nested table of a line comes out refreshed if its plan is renewed. -/
def Renews (calls : List (Call α)) (line : Line (Plan α)) : Prop :=
  ∀ inner, line.nested = some inner → ∀ table, (inner.receive calls).build = .ok table →
    (inner.receive calls).renewed.build = .ok table.refresh

private theorem Realizes.eq_refreshEntry {calls : List (Call α)} {line : Line (Plan α)}
    {e c : Entry α} (hline : Renews calls line) (he : Realizes calls line e)
    (hc : Realizes [] (renewLine calls line) c) :
    Table.refreshEntry e = { c with weight := e.weight } := by
  obtain ⟨id, program, weight, nested⟩ := e
  obtain ⟨id', program', weight', nested'⟩ := c
  have hid : id' = id := hc.id.trans he.id.symm
  have hprogram : program' = program := Except.ok.inj (hc.program.symm.trans he.program)
  have hnested : nested' = nested.map Table.refresh := by
    obtain ⟨lineId, formula, plan⟩ := line
    have hnow := he.nested
    have hnew := hc.nested
    simp only [renewLine] at hnow hnew
    cases hnow with
    | none =>
        cases hnew
        rfl
    | some hbuild =>
        cases hnew with
        | some hfresh =>
            rw [receive_nil, hline _ rfl _ hbuild] at hfresh
            rw [← Except.ok.inj hfresh]
            rfl
  rw [hid, hprogram, hnested]
  rfl

private theorem exists_renewed_definition {calls : List (Call α)} {line : Line (Plan α)}
    {e : Entry α}
    (hline : Renews calls line) (hid : line.id.isNone = false) (he : Realizes calls line e) :
    ∃ d, Defines (renewLine calls line) d ∧ ∃ c, d.compile = .ok c := by
  refine ⟨⟨line.id, line.formula, e.nested.map Table.refresh⟩, ⟨rfl, rfl, ?_⟩, ?_⟩
  · obtain ⟨id, formula, nested⟩ := line
    have hnow := he.nested
    simp only [renewLine]
    generalize e.nested = table at hnow ⊢
    cases hnow with
    | none => exact .none
    | some hbuild => exact .some (hline _ rfl _ hbuild)
  · exact ⟨⟨line.id, e.program, 0, e.nested.map Table.refresh⟩,
      Definition.compile_eq_ok_iff.2 ⟨hid, he.program, rfl⟩⟩

private theorem exists_renewed_definitions {p : Plan α} {t : Table α} (h : p.build = .ok t)
    (hlines : ∀ line ∈ p.lines, Renews p.calls line) :
    ∃ definitions : List (Definition α), ∃ compiled : List (Entry α),
      List.Forall₂ Defines p.renewed.lines definitions ∧
        List.Forall₂ (fun d c => d.compile = .ok c) definitions compiled := by
  obtain ⟨-, hnamed⟩ := id_of_build h
  obtain ⟨definitions, hdefinitions⟩ : ∃ definitions,
      List.Forall₂ (fun line d => Defines (renewLine p.calls line) d ∧
        ∃ c, d.compile = .ok c) p.lines definitions := by
    apply exists_forall₂
    intro line hline
    obtain ⟨e, he⟩ := exists_of_forall₂ (builds_of_build h).entries line (mem_arranged.2 hline)
    exact exists_renewed_definition (hlines line hline) (hnamed line hline) he
  obtain ⟨compiled, hcompiled⟩ : ∃ compiled,
      List.Forall₂ (fun (d : Definition α) c => d.compile = .ok c) definitions compiled :=
    exists_forall₂ (forall_mem_of_forall₂ (fun _ _ hd => hd.2) hdefinitions)
  refine ⟨definitions, compiled, ?_, hcompiled⟩
  rw [renewed_eq, List.forall₂_map_left_iff]
  exact hdefinitions.imp fun _ _ hd => hd.1

theorem build_renewed {p : Plan α} {t : Table α} (h : p.build = .ok t) :
    p.renewed.build = .ok t.refresh := by
  induction p using nested_induction generalizing t with
  | step p ih =>
      have hbuilds := builds_of_build h
      have hrenews : ∀ line ∈ p.lines, Renews p.calls line :=
        fun line hline inner hinner _ => ih line hline inner hinner
      obtain ⟨definitions, compiled, hlines, hcompiled⟩ := exists_renewed_definitions h hrenews
      have harranged := realizes_arrange hlines hcompiled
      rw [arranged_renewed, List.forall₂_map_left_iff] at harranged
      -- A renewed line compiles to the entry that there is, refreshed, but for its weight.
      have hframes : List.Forall₂
          (fun e (c : Entry α) => Table.refreshEntry e = { c with weight := e.weight })
          t.entries (Table.arrange compiled) := by
        have hrenews' : ∀ line ∈ p.arranged, Renews p.calls line :=
          fun line hline => hrenews line (mem_arranged.1 hline)
        refine forall₂_trans ?_
          ((List.forall₂_and_left _ _).2 ⟨hrenews', hbuilds.entries⟩ |>.flip) harranged
        rintro e line c ⟨hline, he⟩ hc
        exact he.eq_refreshEntry hline hc
      have hweighed : List.Forall₂
          (fun c w => c.weigh p.config.onMissingVariable p.currentBindings = .ok w)
          (Table.arrange compiled) (t.entries.map Table.refreshEntry) := by
        rw [List.forall₂_map_right_iff]
        refine ((List.forall₂_and_left _ _).2 ⟨hbuilds.coherent.current, hframes⟩).flip.imp ?_
        rintro c e ⟨hvalue, hframe⟩
        rw [EntryOf.weigh_eq_ok_iff, hframe]
        rw [Table.value, hbuilds.config, hbuilds.bindings] at hvalue
        exact ⟨congrArg (·.program) hframe ▸ hvalue, rfl⟩
      have hne : definitions ≠ [] := by
        rintro rfl
        rw [List.forall₂_nil_right_iff, renewed_eq, List.map_eq_nil_iff] at hlines
        exact (id_of_build h).1 hlines
      refine build_eq_ok_iff.2 ⟨t.refresh, ?_, by rw [renewed_eq]; rfl⟩
      refine create_eq_ok_iff.2 ⟨definitions, hlines, ?_⟩
      rw [renewed_eq]
      refine Table.create_eq_ok_iff.2 ⟨hne, compiled, t.entries.map Table.refreshEntry,
        hcompiled, hweighed, ?_⟩
      rw [← hbuilds.config, ← hbuilds.bindings]
      exact hbuilds.coherent.ofEntries_refreshEntry

end Plan

end DropTable
