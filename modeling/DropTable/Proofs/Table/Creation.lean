import Mathlib.Data.List.Forall2
import DropTable.Proofs.Fault
import DropTable.Table.Creation
/-!
# What creation makes of definitions

Creation succeeds when every formula compiles and every program has a value.  The table then has the
compiled entries in the order of their arrangement, each with the value of its program.
-/

namespace DropTable

/-! ## Lists side by side -/

theorem forall₂_trans {β γ δ : Type} {R : β → γ → Prop} {S : γ → δ → Prop} {T : β → δ → Prop}
    (h : ∀ x y z, R x y → S y z → T x z) {xs : List β} {ys : List γ} {zs : List δ}
    (hxy : List.Forall₂ R xs ys) (hyz : List.Forall₂ S ys zs) : List.Forall₂ T xs zs := by
  induction hxy generalizing zs with
  | nil =>
      cases hyz
      exact .nil
  | cons hhead _ ih =>
      cases hyz with
      | cons hhead' htail' => exact .cons (h _ _ _ hhead hhead') (ih htail')

theorem forall_mem_of_forall₂ {β γ : Type} {R : β → γ → Prop} {P : γ → Prop}
    (h : ∀ x y, R x y → P y) {xs : List β} {ys : List γ} (hxy : List.Forall₂ R xs ys) :
    ∀ y ∈ ys, P y := by
  induction hxy with
  | nil => simp
  | cons hhead _ ih => exact List.forall_mem_cons.2 ⟨h _ _ hhead, ih⟩

theorem exists_forall₂ {β γ : Type} {R : β → γ → Prop} {xs : List β}
    (h : ∀ x ∈ xs, ∃ y, R x y) : ∃ ys, List.Forall₂ R xs ys := by
  induction xs with
  | nil => exact ⟨[], .nil⟩
  | cons x xs ih =>
      obtain ⟨⟨y, hy⟩, hrest⟩ := List.forall_mem_cons.1 h
      obtain ⟨ys, hys⟩ := ih hrest
      exact ⟨y :: ys, .cons hy hys⟩

/-! ## Passes over lists -/

namespace FaultList

variable {β : Type}

private theorem collect_eq_ok_iff {results : List (Except FaultList β)} {values : List β} :
    collect results = .ok values ↔ results = values.map .ok := by
  rw [collect, check_eq_ok_iff]
  induction results generalizing values with
  | nil => cases values <;> simp
  | cons result results ih =>
      cases result with
      | error faults => cases values <;> simp [toList]
      | ok value =>
          cases values with
          | nil => simp [Except.toOption]
          | cons head values =>
              have htail := @ih values
              simp only [List.flatMap_cons, List.nil_append, List.filterMap_cons, Except.toOption,
                List.map_cons, List.cons.injEq, Except.ok.injEq] at htail ⊢
              rw [← htail]
              tauto

theorem collect_map_eq_ok_iff {γ : Type} {f : γ → Except FaultList β} {xs : List γ}
    {ys : List β} :
    collect (xs.map f) = .ok ys ↔ List.Forall₂ (fun x y => f x = .ok y) xs ys := by
  rw [collect_eq_ok_iff, ← List.forall₂_eq_eq_eq, List.forall₂_map_left_iff,
    List.forall₂_map_right_iff]

end FaultList

variable {α : Type} [Scalar α] [Numeral α]

theorem EntryOf.weigh_eq_ok_iff {τ : Type} {missing : MissingVariable} {bindings : Bindings α}
    {e weighed : EntryOf α τ} :
    e.weigh missing bindings = .ok weighed ↔
      e.program.evaluate missing bindings = .ok weighed.weight ∧
        weighed = { e with weight := weighed.weight } := by
  unfold weigh
  cases hvalue : e.program.evaluate missing bindings with
  | error fault => simp
  | ok weight =>
      simp only [Except.ok.injEq]
      constructor
      · rintro rfl
        exact ⟨rfl, rfl⟩
      · rintro ⟨rfl, hweighed⟩
        exact hweighed.symm

/-! ## The order of entries -/

/-- Whether a text compiles to a program that refers to a variable. -/
def Program.textHasVariables (α : Type) [Scalar α] [Numeral α] (text : String) : Bool :=
  match (compile text : Except FaultList (Program α)) with
  | .ok program => program.hasVariables
  | .error _ => false

open Program (textHasVariables)

/-- What has formulas, in the order of entries: without variables first, and otherwise as it is
given. -/
def arrangeBy (α : Type) [Scalar α] [Numeral α] {β : Type} (formula : β → String) (xs : List β) :
    List β :=
  xs.filter (fun x => !textHasVariables α (formula x)) ++
    xs.filter fun x => textHasVariables α (formula x)

section Arrangement

variable {β : Type} {formula : β → String}

theorem arrangeBy_perm (xs : List β) : (arrangeBy α formula xs).Perm xs :=
  List.perm_append_comm.trans (List.filter_append_perm _ xs)

theorem arrangeBy_map {γ : Type} {f : γ → β} (xs : List γ) :
    arrangeBy α formula (xs.map f) = (arrangeBy α (formula ∘ f) xs).map f := by
  simp only [arrangeBy, List.filter_map, List.map_append, Function.comp_def]

theorem forall₂_arrangeBy {R : β → Entry α → Prop}
    (hprogram : ∀ x e, R x e → Program.compile (formula x) = .ok e.program) {xs : List β}
    {entries : List (Entry α)} (h : List.Forall₂ R xs entries) :
    List.Forall₂ R (arrangeBy α formula xs) (Table.arrange entries) := by
  have hvariables : ∀ x e, R x e → textHasVariables α (formula x) = e.hasVariables := by
    intro x e hx
    rw [textHasVariables, hprogram x e hx, EntryOf.hasVariables]
  refine List.rel_append (List.rel_filter ?_ h) (List.rel_filter ?_ h) <;>
  · intro x e hx
    simp [hvariables x e hx]

end Arrangement

namespace Definition

theorem compile_eq_ok_iff {d : Definition α} {e : Entry α} :
    d.compile = .ok e ↔
      d.id.isNone = false ∧ Program.compile d.formula = .ok e.program ∧
        e = { id := d.id, program := e.program, weight := 0, nested := d.nested } := by
  unfold compile
  cases hid : d.id.isNone with
  | true => simp
  | false =>
      cases hprogram : (Program.compile d.formula : Except FaultList (Program α)) with
      | error faults => simp
      | ok program =>
          simp only [Bool.false_eq_true, if_false, Except.ok.injEq, true_and]
          constructor
          · rintro rfl
            exact ⟨rfl, rfl⟩
          · rintro ⟨rfl, he⟩
            exact he.symm

end Definition

namespace Table

open FaultList (collect_map_eq_ok_iff)

theorem create_eq_ok_iff {config : Config} {bindings : Bindings α}
    {definitions : List (Definition α)} {t : Table α} :
    create config bindings definitions = .ok t ↔
      definitions ≠ [] ∧ ∃ compiled weighed,
        List.Forall₂ (fun d e => d.compile = .ok e) definitions compiled ∧
        List.Forall₂ (fun e w => e.weigh config.onMissingVariable bindings = .ok w)
          (arrange compiled) weighed ∧
        ofEntries config bindings weighed = t := by
  have hweigh : ∀ compiled weighed,
      FaultList.collect ((arrange compiled).map fun e =>
        (e.weigh config.onMissingVariable bindings).mapError fun fault => ⟨fault, []⟩) =
        .ok weighed ↔
      List.Forall₂ (fun e w => e.weigh config.onMissingVariable bindings = .ok w)
        (arrange compiled) weighed := by
    intro compiled weighed
    rw [collect_map_eq_ok_iff]
    simp only [mapError_eq_ok_iff]
  cases definitions with
  | nil => simp [create, throw, throwThe, MonadExceptOf.throw, bind, Except.bind]
  | cons d definitions =>
      simp only [create, List.isEmpty_cons, Bool.false_eq_true, if_false,
        bind_eq_ok_iff, collect_map_eq_ok_iff, hweigh, pure, Except.pure, Except.ok.injEq]
      constructor
      · rintro ⟨compiled, hcompiled, weighed, hweighed, ht⟩
        exact ⟨by simp, compiled, weighed, hcompiled, hweighed, ht⟩
      · rintro ⟨-, compiled, weighed, hcompiled, hweighed, ht⟩
        exact ⟨compiled, hcompiled, weighed, hweighed, ht⟩

end Table

end DropTable
