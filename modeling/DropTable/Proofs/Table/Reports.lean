import DropTable.Numeral.Binary64
import DropTable.Proofs.Table.Samplers
import DropTable.Scalar.Binary64
/-!
# Changes of variables have nothing to report

A program that has a value once keeps having one as long as no variable loses its value, and no call
takes a value away.  A table that was created therefore never has a fault to report, at any level
and whatever the values are.
-/

namespace DropTable

variable {α : Type} [Scalar α] [Numeral α]

/-- What a call answers: a change of a variable reports the faults that it has found. -/
def Call.answer (t : Table α) : Call α → Except FaultList Unit
  | .update name value => FaultList.check (t.update name value).2 ()
  | .rebuild => .ok ()

/-- What a run of calls answers, each made on the table that those before it have left. -/
def answers (t : Table α) : List (Call α) → List (Except FaultList Unit)
  | [] => []
  | call :: calls => call.answer t :: answers (call.perform t) calls

namespace Table

private theorem Stale.reweigh_snd {t : Table α} {position : Nat} {positions : List Nat}
    (h : t.Stale (position :: positions)) : (t.reweigh position).2 = [] := by
  obtain ⟨-, hreweigh⟩ | ⟨e, weight, -, -, hreweigh⟩ := h.reweigh_cases
  · rw [hreweigh]
  · rw [hreweigh]

private theorem Stale.foldl_reweigh {t : Table α} {positions : List Nat} (h : t.Stale positions)
    (faults : List Fault) :
    positions.foldl
        (fun (t, faults) position =>
          let (t, more) := t.reweigh position
          (t, faults ++ more))
        (t, faults) =
      (t.reweighAll positions, faults) := by
  induction positions generalizing t with
  | nil => rfl
  | cons position positions ih =>
      rw [List.foldl_cons]
      simp only [h.reweigh_snd, List.append_nil]
      exact ih h.reweigh

theorem Coherent.assign_snd {t : Table α} (h : t.Coherent) (name : String) (value : α) :
    (t.assign name value).2 = [] := by
  rw [assign, (h.stale_insert name value).foldl_reweigh]

theorem update_snd {t : Table α} (h : t.Everywhere Coherent) (name : String) (value : α) :
    (t.update name value).2 = [] := by
  induction t using nested_induction with
  | step t ih =>
      obtain ⟨hlevel, hnested⟩ := everywhere_iff.1 h
      rw [update_eq, List.append_eq_nil_iff, List.flatMap_eq_nil_iff]
      refine ⟨(hlevel.passOn name value).assign_snd name value, ?_⟩
      rintro ⟨id, program, weight, nested⟩ he
      cases nested with
      | none => rfl
      | some inner =>
          have hinner : (inner.update name value).2 = [] := ih _ he inner rfl (hnested _ he inner rfl)
          exact congrArg (List.map (Fault.inEntry id)) hinner

end Table

namespace Plan

theorem everywhere_coherent_of_build {p : Plan α} {t : Table α} (h : p.build = .ok t) :
    t.Everywhere Table.Coherent := by
  intro path level hlevel
  obtain ⟨q, -, hbuild⟩ := build_of_level h hlevel
  exact (builds_of_build hbuild).coherent

theorem answers_of_build {p : Plan α} {t : Table α} (h : p.build = .ok t) (calls : List (Call α)) :
    answers t calls = List.replicate calls.length (.ok ()) := by
  induction calls generalizing p t with
  | nil => rfl
  | cons call calls ih =>
      have hanswer : call.answer t = .ok () := by
        cases call with
        | update name value =>
            rw [Call.answer, Table.update_snd (everywhere_coherent_of_build h)]
            rfl
        | rebuild => rfl
      have hnext := build_concat p call
      rw [h] at hnext
      rw [answers, hanswer, ih hnext, List.length_cons, List.replicate_succ]

/-- Once a table is created, every change of a variable succeeds. -/
theorem answers_of_create {p : Plan α} {t : Table α} (h : p.create = .ok t)
    (calls : List (Call α)) : answers t calls = List.replicate calls.length (.ok ()) := by
  have hbuild : ({ p with calls := [] } : Plan α).build = .ok t := by
    rw [build, create_calls, h]
    rfl
  exact answers_of_build hbuild calls

/-- Neither a NaN nor an infinity nor an unknown variable makes a difference. -/
theorem answers_of_create_pouch :
    let p : Plan Float := pouch .fenwick .aliasBuckets []
    ∃ t, p.create = .ok t ∧
      answers t [.update "luck" (0 / 0), .rebuild, .update "gold" (1 / 0), .update "key" 1] =
        [.ok (), .ok (), .ok (), .ok ()] := by
  intro p
  obtain ⟨t, ht⟩ : ∃ t, p.create = .ok t := exists_of_isOk (by decide +kernel)
  exact ⟨t, ht, answers_of_create ht _⟩

end Plan

end DropTable
