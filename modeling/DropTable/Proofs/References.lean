import Mathlib.Data.List.Nodup
import DropTable.Proofs.Program.Evaluation
import DropTable.References
/-!
# References represent occurrence

The index of references is built one program and one variable at a time.  For each variable it lists
the positions of the programs in which the variable occurs, each once and in ascending order.
-/

namespace DropTable.References

variable {α : Type}

private theorem dependents_empty (name : String) : (⟨∅⟩ : References).dependents name = [] := by
  simp [dependents]

theorem dependents_addReference (position : Nat) (r : References) (other name : String) :
    (addReference position r other).dependents name =
      r.dependents name ++ if other = name then [position] else [] := by
  unfold dependents addReference
  by_cases h : other = name <;> simp [Std.ExtTreeMap.getD_insert, h]

private theorem dependents_foldl_addReference (position : Nat) (names : List String)
    (r : References) (name : String) :
    (names.foldl (addReference position) r).dependents name =
      r.dependents name ++ List.replicate (names.count name) position := by
  induction names generalizing r with
  | nil => simp
  | cons other names ih =>
      rw [List.foldl_cons, ih, dependents_addReference, List.count_cons, List.append_assoc]
      by_cases h : other = name
      · simp [h, List.replicate_succ]
      · simp [h]

private theorem dependents_addProgram (r : References) (p : Program α) (position : Nat)
    (name : String) :
    (r.addProgram p position).dependents name =
      r.dependents name ++ if p.references name then [position] else [] := by
  have hnodup : p.variableNames.toList.Nodup := by
    refine Std.ExtTreeSet.distinct_toList.imp ?_
    rintro a b hab rfl
    exact hab Std.ReflCmp.compare_self
  have hmem : name ∈ p.variableNames.toList ↔ p.references name = true := by
    rw [Std.ExtTreeSet.mem_toList, Program.references, Std.ExtTreeSet.contains_iff_mem]
  rw [addProgram, dependents_foldl_addReference]
  by_cases h : p.references name = true
  · rw [List.count_eq_one_of_mem hnodup (hmem.2 h), if_pos h, List.replicate_one]
  · rw [List.count_eq_zero_of_not_mem (mt hmem.1 h), if_neg h, List.replicate_zero]

private theorem dependents_foldl_addProgram (programs : List (Program α)) (first : Nat)
    (r : References) (name : String) :
    ((programs.zipIdx first).foldl (fun r (p, position) => r.addProgram p position) r).dependents
        name =
      r.dependents name ++
        ((programs.zipIdx first).filter fun p => p.1.references name).map Prod.snd := by
  induction programs generalizing first r with
  | nil => simp
  | cons p programs ih =>
      rw [List.zipIdx_cons, List.foldl_cons, ih, dependents_addProgram, List.append_assoc]
      by_cases h : p.references name = true <;> simp [h]

theorem dependents_ofPrograms (programs : List (Program α)) (name : String) :
    (ofPrograms programs).dependents name =
      (programs.zipIdx.filter fun p => p.1.references name).map Prod.snd := by
  rw [ofPrograms, dependents_foldl_addProgram, dependents_empty, List.nil_append]

theorem mem_dependents_ofPrograms {programs : List (Program α)} {name : String} {position : Nat} :
    position ∈ (ofPrograms programs).dependents name ↔
      ∃ p, programs[position]? = some p ∧ p.references name = true := by
  rw [dependents_ofPrograms]
  simp only [List.mem_map, List.mem_filter, Prod.exists, List.mk_mem_zipIdx_iff_getElem?]
  constructor
  · rintro ⟨p, i, ⟨hp, hname⟩, rfl⟩
    exact ⟨p, hp, hname⟩
  · rintro ⟨p, hp, hname⟩
    exact ⟨p, position, ⟨hp, hname⟩, rfl⟩

end DropTable.References
