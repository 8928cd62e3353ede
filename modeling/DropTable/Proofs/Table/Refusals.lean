import Mathlib.Data.List.Flatten
import DropTable.Numeral.Binary64
import DropTable.Proofs.Table.Creation
import DropTable.Scalar.Binary64
/-!
# What a creation reports

A creation looks at all definitions before it gives up, first at the identifiers and formulas and
then at the values.  Its report has every fault that a pass can find, with one exception: the
formula of a definition without an identifier is not looked at.
-/

namespace DropTable

namespace FaultList

variable {β : Type}

/-- What a result reports. -/
def reports : Except FaultList β → List Fault
  | .ok _ => []
  | .error faults => faults.toList

private theorem toList_ne_nil (faults : FaultList) : faults.toList ≠ [] :=
  List.cons_ne_nil _ _

theorem reports_eq_nil_iff {result : Except FaultList β} :
    reports result = [] ↔ ∃ value, result = .ok value := by
  cases result with
  | ok value => simp [reports]
  | error faults => simp [reports, toList_ne_nil]

private theorem exists_collect_eq_error {results : List (Except FaultList β)}
    (h : results.flatMap reports ≠ []) :
    ∃ reported, collect results = .error reported ∧ reported.toList = results.flatMap reports :=
  exists_check_eq_error h _

end FaultList

private theorem flatMap_eq_flatMap_iff {β γ : Type} {f g : β → List γ}
    (hsub : ∀ x, (f x).Sublist (g x))
    {xs : List β} : xs.flatMap f = xs.flatMap g ↔ ∀ x ∈ xs, f x = g x := by
  constructor
  · intro heq
    induction xs with
    | nil => simp
    | cons x xs ih =>
        have hlength := congrArg List.length heq
        simp only [List.flatMap_cons, List.length_append] at hlength
        have hhead : f x = g x := by
          apply (hsub x).eq_of_length
          have hle := (hsub x).length_le
          have hrest := (List.Sublist.flatMap_right xs fun x _ => hsub x).length_le
          omega
        rw [List.flatMap_cons, List.flatMap_cons, hhead, List.append_cancel_left_eq] at heq
        exact List.forall_mem_cons.2 ⟨hhead, ih heq⟩
  · exact List.flatMap_congr

variable {α : Type} [Scalar α] [Numeral α]

namespace Definition

/-- What is wrong with the formula of a definition. -/
def formulaFaults (d : Definition α) : List Fault :=
  match (Program.compile d.formula : Except FaultList (Program α)) with
  | .ok _ => []
  | .error faults => faults.toList.map (.inEntry d.id)

/-- All that is wrong with a definition before its program is evaluated. -/
def problems (d : Definition α) : List Fault :=
  (if d.id.isNone then [.emptyEntryId] else []) ++ d.formulaFaults

/-- What of this is found: without an identifier the formula is left alone. -/
def noticed (d : Definition α) : List Fault :=
  if d.id.isNone then [.emptyEntryId] else d.formulaFaults

/-- What is wrong with the value of a program. -/
def failure? (missing : MissingVariable) (bindings : Bindings α) (d : Definition α) :
    Option Fault :=
  match (Program.compile d.formula : Except FaultList (Program α)) with
  | .ok program =>
    match program.evaluate missing bindings with
    | .ok _ => none
    | .error fault => some (.inEntry d.id fault)
  | .error _ => none

/-- Definitions in the order of their entries. -/
def arranged (definitions : List (Definition α)) : List (Definition α) :=
  arrangeBy α formula definitions

/-- An entry that is made of a definition. -/
structure Becomes (missing : MissingVariable) (bindings : Bindings α) (d : Definition α)
    (e : Entry α) : Prop where
  id : e.id = d.id
  program : Program.compile d.formula = .ok e.program
  weight : e.program.evaluate missing bindings = .ok e.weight
  nested : e.nested = d.nested

/-! ## The pass over the formulas -/

theorem reports_compile (d : Definition α) : FaultList.reports d.compile = d.noticed := by
  unfold compile noticed formulaFaults
  split
  case isTrue => rfl
  case isFalse =>
    cases (Program.compile d.formula : Except FaultList (Program α)) with
    | ok program => rfl
    | error faults => rfl

private theorem noticed_sublist_problems (d : Definition α) : d.noticed.Sublist d.problems := by
  unfold noticed problems
  split
  case isTrue => exact List.sublist_append_left _ _
  case isFalse => exact List.sublist_append_right _ _

private theorem noticed_eq_problems_iff {d : Definition α} :
    d.noticed = d.problems ↔ (d.id.isNone = true → d.formulaFaults = []) := by
  unfold noticed problems
  cases d.id.isNone with
  | true => simp
  | false => simp

private theorem noticed_eq_nil_iff {d : Definition α} : d.noticed = [] ↔ d.problems = [] := by
  unfold noticed problems
  cases d.id.isNone with
  | true => simp
  | false => simp

theorem exists_compile_iff {d : Definition α} :
    (∃ e, d.compile = .ok e) ↔ d.problems = [] := by
  rw [← noticed_eq_nil_iff, ← reports_compile, FaultList.reports_eq_nil_iff]

/-! ## The pass over the values -/

section Compiled

variable {d : Definition α} {e : Entry α}

private theorem reports_weigh (h : d.compile = .ok e) (missing : MissingVariable)
    (bindings : Bindings α) :
    FaultList.reports
        ((e.weigh missing bindings).mapError fun fault => (⟨fault, []⟩ : FaultList)) =
      (d.failure? missing bindings).toList := by
  obtain ⟨-, hprogram, he⟩ := compile_eq_ok_iff.1 h
  have hid : e.id = d.id := by rw [he]
  simp only [failure?, hprogram, EntryOf.weigh]
  cases e.program.evaluate missing bindings with
  | ok weight => rfl
  | error fault =>
      rw [hid]
      rfl

private theorem becomes_of_weigh (h : d.compile = .ok e) {missing : MissingVariable}
    {bindings : Bindings α} {weighed : Entry α} (hweigh : e.weigh missing bindings = .ok weighed) :
    Becomes missing bindings d weighed := by
  obtain ⟨-, hprogram, he⟩ := compile_eq_ok_iff.1 h
  obtain ⟨hvalue, hweighed⟩ := EntryOf.weigh_eq_ok_iff.1 hweigh
  refine ⟨?_, ?_, ?_, ?_⟩
  · rw [hweighed, he]
  · rw [hprogram, hweighed]
  · rw [← hvalue, hweighed]
  · rw [hweighed, he]

private theorem exists_weigh (h : d.compile = .ok e) {missing : MissingVariable}
    {bindings : Bindings α} (hvalue : d.failure? missing bindings = none) :
    ∃ weighed, e.weigh missing bindings = .ok weighed := by
  have hreports := reports_weigh h missing bindings
  rw [hvalue, Option.toList_none, FaultList.reports_eq_nil_iff] at hreports
  obtain ⟨weighed, hweighed⟩ := hreports
  exact ⟨weighed, mapError_eq_ok_iff.1 hweighed⟩

end Compiled

private theorem perm_arranged (definitions : List (Definition α)) :
    (arranged definitions).Perm definitions :=
  arrangeBy_perm definitions

private theorem forall₂_arranged {definitions : List (Definition α)} {compiled : List (Entry α)}
    (h : List.Forall₂ (fun d e => d.compile = .ok e) definitions compiled) :
    List.Forall₂ (fun d e => d.compile = .ok e) (arranged definitions) (Table.arrange compiled) := by
  refine forall₂_arrangeBy ?_ h
  intro d e hd
  exact (compile_eq_ok_iff.1 hd).2.1

private theorem flatMap_reports_weigh {definitions : List (Definition α)}
    {compiled : List (Entry α)}
    (h : List.Forall₂ (fun d e => d.compile = .ok e) definitions compiled)
    (missing : MissingVariable) (bindings : Bindings α) :
    (compiled.map fun e => (e.weigh missing bindings).mapError fun fault =>
        (⟨fault, []⟩ : FaultList)).flatMap FaultList.reports =
      definitions.filterMap (failure? missing bindings) := by
  induction h with
  | nil => rfl
  | cons hhead _ ih =>
      rw [List.map_cons, List.flatMap_cons, ih, reports_weigh hhead, List.filterMap_cons]
      cases failure? missing bindings _ <;> rfl

end Definition

namespace Table

open Definition (arranged perm_arranged)

/-- How the creation of a table comes out. -/
structure Decides (config : Config) (bindings : Bindings α) (definitions : List (Definition α))
    (result : Except FaultList (Table α)) : Prop where
  /-- The report is complete unless a definition lacks its identifier and has a faulty formula as
  well. -/
  refused : (∃ d ∈ definitions, d.problems ≠ []) →
    ∃ faults, result = .error faults ∧ faults.toList = definitions.flatMap Definition.noticed ∧
      (faults.toList = definitions.flatMap Definition.problems ↔
        ∀ d ∈ definitions, d.id.isNone = true → d.formulaFaults = [])
  failed : (∀ d ∈ definitions, d.problems = []) →
    (∃ d ∈ definitions, d.failure? config.onMissingVariable bindings ≠ none) →
    ∃ faults, result = .error faults ∧
      faults.toList =
        (arranged definitions).filterMap (Definition.failure? config.onMissingVariable bindings)
  created : (∀ d ∈ definitions, d.problems = []) →
    (∀ d ∈ definitions, d.failure? config.onMissingVariable bindings = none) →
    ∃ t, result = .ok t ∧ t.size = definitions.length ∧
      List.Forall₂ (Definition.Becomes config.onMissingVariable bindings) (arranged definitions)
        t.entries

theorem create_of_problems {definitions : List (Definition α)}
    (h : ∃ d ∈ definitions, d.problems ≠ []) (config : Config) (bindings : Bindings α) :
    ∃ faults, create config bindings definitions = .error faults ∧
      faults.toList = definitions.flatMap Definition.noticed := by
  obtain ⟨d, hd, hproblems⟩ := h
  have hreports : (definitions.map Definition.compile).flatMap FaultList.reports =
      definitions.flatMap Definition.noticed := by
    rw [List.flatMap_map]
    exact List.flatMap_congr fun d _ => d.reports_compile
  have hne : definitions.flatMap Definition.noticed ≠ [] := by
    intro hnil
    exact hproblems (Definition.noticed_eq_nil_iff.1 (List.flatMap_eq_nil_iff.1 hnil d hd))
  obtain ⟨faults, hcollect, hfaults⟩ := FaultList.exists_collect_eq_error (hreports ▸ hne)
  refine ⟨faults, ?_, hfaults.trans hreports⟩
  rw [create, if_neg (by simpa using List.ne_nil_of_mem hd), hcollect]
  rfl

theorem create_of_compile {definitions : List (Definition α)} {compiled : List (Entry α)}
    (hne : definitions ≠ [])
    (h : List.Forall₂ (fun d e => d.compile = .ok e) definitions compiled) (config : Config)
    (bindings : Bindings α) :
    create config bindings definitions =
      (FaultList.collect ((arrange compiled).map fun e =>
        (e.weigh config.onMissingVariable bindings).mapError fun fault => ⟨fault, []⟩)).map
          (ofEntries config bindings) := by
  rw [create, if_neg (by simpa using hne), FaultList.collect_map_eq_ok_iff.2 h]
  rfl

/-- A table is created with all of its entries, or all that the last pass finds is reported. -/
theorem decides_create {definitions : List (Definition α)} (h : definitions ≠ [])
    (config : Config) (bindings : Bindings α) :
    Decides config bindings definitions (create config bindings definitions) := by
  have hcompiled : (∀ d ∈ definitions, d.problems = []) → ∃ compiled,
      List.Forall₂ (fun d (e : Entry α) => d.compile = .ok e) definitions compiled :=
    fun hok => exists_forall₂ fun d hd => Definition.exists_compile_iff.2 (hok d hd)
  refine ⟨?_, ?_, ?_⟩
  · intro hproblems
    obtain ⟨faults, hcreate, hfaults⟩ := create_of_problems hproblems config bindings
    refine ⟨faults, hcreate, hfaults, ?_⟩
    rw [hfaults, flatMap_eq_flatMap_iff Definition.noticed_sublist_problems]
    simp only [Definition.noticed_eq_problems_iff]
  · rintro hok ⟨d, hd, hfailure⟩
    obtain ⟨compiled, hcompiled⟩ := hcompiled hok
    have hreports := Definition.flatMap_reports_weigh (Definition.forall₂_arranged hcompiled)
      config.onMissingVariable bindings
    have hne : (arranged definitions).filterMap
        (Definition.failure? config.onMissingVariable bindings) ≠ [] := by
      intro hnil
      exact hfailure (List.filterMap_eq_nil_iff.1 hnil d ((perm_arranged definitions).mem_iff.2 hd))
    obtain ⟨faults, hcollect, hfaults⟩ := FaultList.exists_collect_eq_error (hreports ▸ hne)
    refine ⟨faults, ?_, hfaults.trans hreports⟩
    rw [create_of_compile h hcompiled, hcollect]
    rfl
  · intro hok hvalues
    obtain ⟨compiled, hcompiled⟩ := hcompiled hok
    have harranged := Definition.forall₂_arranged hcompiled
    obtain ⟨weighed, hweighed⟩ : ∃ weighed, List.Forall₂
        (fun e w => e.weigh config.onMissingVariable bindings = .ok w) (arrange compiled) weighed := by
      apply exists_forall₂
      have hnone : ∀ d ∈ arranged definitions,
          d.failure? config.onMissingVariable bindings = none :=
        fun d hd => hvalues d ((perm_arranged definitions).mem_iff.1 hd)
      refine forall_mem_of_forall₂ ?_ ((List.forall₂_and_left _ _).2 ⟨hnone, harranged⟩)
      rintro d e ⟨hvalue, hd⟩
      exact Definition.exists_weigh hd hvalue
    have hbecomes : List.Forall₂ (Definition.Becomes config.onMissingVariable bindings)
        (arranged definitions) weighed := by
      refine forall₂_trans ?_ harranged hweighed
      intro d e w hd hw
      exact Definition.becomes_of_weigh hd hw
    refine ⟨ofEntries config bindings weighed, ?_, ?_, hbecomes⟩
    · rw [create_of_compile h hcompiled, FaultList.collect_map_eq_ok_iff.2]
      · rfl
      · simpa only [mapError_eq_ok_iff] using hweighed
    · rw [← (perm_arranged definitions).length_eq, hbecomes.length_eq]
      rfl

/-- The ring needs no variable, so that its fault comes before that of the coin. -/
theorem decides_create_ring :
    let config : Config := { (default : Config) with onMissingVariable := .fail }
    let definitions : List (Definition Float) :=
      [⟨⟨"coin"⟩, "2 * luck", none⟩, ⟨⟨"ring"⟩, "(1)(2)", none⟩, ⟨⟨"gem"⟩, "3", none⟩]
    ∃ faults, create config ∅ definitions = .error faults ∧ faults.toList =
      [.inEntry ⟨"ring"⟩ (.malformedExpression "1 2" (.leftoverOperands 2)),
        .inEntry ⟨"coin"⟩ (.variableNotDefined "luck")] := by
  intro config definitions
  have hproblems : ∀ d ∈ definitions, d.problems = [] := by decide +kernel
  have hfailure : ∃ d ∈ definitions, d.failure? config.onMissingVariable ∅ ≠ none := by
    decide +kernel
  have hne : definitions ≠ [] := List.cons_ne_nil _ _
  have hdecides := decides_create hne config ∅
  obtain ⟨faults, hcreate, hfaults⟩ := hdecides.failed hproblems hfailure
  refine ⟨faults, hcreate, hfaults.trans ?_⟩
  decide +kernel

/-- An entry that lacks its identifier keeps the fault in its formula to itself. -/
theorem create_unnamed :
    let definitions : List (Definition Float) := [⟨⟨""⟩, "1 +", none⟩]
    ∃ faults, create default ∅ definitions = .error faults ∧ faults.toList = [.emptyEntryId] ∧
      definitions.flatMap Definition.problems =
        [.emptyEntryId, .inEntry ⟨""⟩ (.malformedExpression "1 +" .trailingOperator)] ∧
      faults.toList ≠ definitions.flatMap Definition.problems := by
  intro definitions
  exact ⟨_, rfl, rfl, by decide +kernel, by decide +kernel⟩

end Table

end DropTable
