import DropTable.Proofs.Program.Conversion
import DropTable.Proofs.References
import DropTable.Proofs.Text.ByteOrder
/-!
# What an index of references answers

An index is asked for the programs that refer to a variable, whether some program does, for all
variables, how many they are, and whether there are none.  Its answers represent a list of programs
when they say of each variable in which programs it occurs and no more, in ascending order.
-/

namespace DropTable

variable {α : Type}

namespace References

/-- All that an index of references can be asked. -/
structure Answers where
  dependents : String → List Nat
  contains : String → Bool
  variableNames : List String
  size : Nat
  isEmpty : Bool

def answers (r : References) : Answers where
  dependents := r.dependents
  contains := r.contains
  variableNames := r.variableNames
  size := r.size
  isEmpty := r.isEmpty

end References

/-- A variable occurs in a program when a token of the program is its name. -/
def Program.Mentions (p : Program α) (name : String) : Prop :=
  ∃ t ∈ p.tokens, t.name? = some name

namespace References

/-- The answers are those that the programs give: positions and names stand in strictly ascending
order, names by their bytes, and what stands there is what occurs. -/
structure Represents (programs : List (Program α)) (a : Answers) : Prop where
  dependents_ascending (name : String) : (a.dependents name).Pairwise (· < ·)
  mem_dependents (name : String) (position : Nat) :
    position ∈ a.dependents name ↔ ∃ p, programs[position]? = some p ∧ p.Mentions name
  contains_iff (name : String) : a.contains name = true ↔ a.dependents name ≠ []
  variableNames_ascending :
    a.variableNames.Pairwise fun x y => Text.bytes x < Text.bytes y
  mem_variableNames (name : String) :
    name ∈ a.variableNames ↔ ∃ p ∈ programs, p.Mentions name
  size_eq : a.size = a.variableNames.length
  isEmpty_iff : a.isEmpty = true ↔ ∀ p ∈ programs, ∀ name, ¬p.Mentions name

theorem dependents_ascending (programs : List (Program α)) (name : String) :
    ((ofPrograms programs).dependents name).Pairwise (· < ·) := by
  have hpositions : (programs.zipIdx.map Prod.snd).Pairwise (· < ·) := by
    rw [List.zipIdx_map_snd]
    exact List.pairwise_lt_range'
  rw [dependents_ofPrograms]
  exact hpositions.sublist (List.filter_sublist.map Prod.snd)

/-! ## Which variables are known -/

theorem contains_addReference (position : Nat) (r : References) (other name : String) :
    (addReference position r other).contains name = true ↔
      other = name ∨ r.contains name = true := by
  simp only [contains, addReference, Std.ExtTreeMap.contains_iff_mem, Std.ExtTreeMap.mem_insert,
    Std.compare_eq_iff_eq]

/-- Each known variable has a position. -/
def Occupied (r : References) : Prop :=
  ∀ name, r.contains name = true ↔ r.dependents name ≠ []

theorem Occupied.addReference {r : References} (h : r.Occupied) (position : Nat)
    (other : String) : (addReference position r other).Occupied := by
  intro name
  rw [contains_addReference, dependents_addReference]
  by_cases hname : other = name <;> simp [hname, h name]

theorem Occupied.addProgram {r : References} (h : r.Occupied) (p : Program α)
    (position : Nat) : (r.addProgram p position).Occupied :=
  List.foldlRecOn _ _ h fun _ hr other _ => hr.addReference position other

private theorem occupied_ofPrograms (programs : List (Program α)) :
    (ofPrograms programs).Occupied := by
  refine List.foldlRecOn _ _ (fun name => ?_) fun _ hr (p, position) _ => hr.addProgram p position
  simp [contains, dependents]

theorem contains_ofPrograms_iff {programs : List (Program α)} {name : String} :
    (ofPrograms programs).contains name = true ↔ ∃ p ∈ programs, p.Mentions name := by
  rw [occupied_ofPrograms programs name, Ne, List.eq_nil_iff_forall_not_mem, not_forall_not]
  simp only [mem_dependents_ofPrograms, Program.references_iff]
  constructor
  · rintro ⟨position, p, hp, hname⟩
    exact ⟨p, List.mem_of_getElem? hp, hname⟩
  · rintro ⟨p, hp, hname⟩
    obtain ⟨position, hposition⟩ := List.mem_iff_getElem?.1 hp
    exact ⟨position, p, hposition, hname⟩

theorem mem_variableNames (r : References) (name : String) :
    name ∈ r.variableNames ↔ r.contains name = true := by
  rw [variableNames, contains, Std.ExtTreeMap.mem_keys, Std.ExtTreeMap.contains_iff_mem]

theorem variableNames_ascending (r : References) :
    r.variableNames.Pairwise fun x y => Text.bytes x < Text.bytes y :=
  Std.ExtTreeMap.ordered_keys.imp fun h => Text.bytes_lt_iff.2 (compare_lt_iff_lt.1 h)

theorem isEmpty_iff (r : References) : r.isEmpty = true ↔ ∀ name, ¬r.contains name = true := by
  simp only [isEmpty, contains, Std.ExtTreeMap.isEmpty_iff, Std.ExtTreeMap.contains_iff_mem,
    Std.ExtTreeMap.eq_empty_iff_forall_not_mem]

theorem represents_ofPrograms (programs : List (Program α)) :
    Represents programs (ofPrograms programs).answers where
  dependents_ascending := dependents_ascending programs
  mem_dependents name position := by
    simp only [answers, mem_dependents_ofPrograms, Program.references_iff, Program.Mentions]
  contains_iff := occupied_ofPrograms programs
  variableNames_ascending := variableNames_ascending _
  mem_variableNames name := (mem_variableNames _ name).trans contains_ofPrograms_iff
  size_eq := Std.ExtTreeMap.length_keys.symm
  isEmpty_iff := by
    simp only [answers, isEmpty_iff, contains_ofPrograms_iff, not_exists, not_and]
    exact ⟨fun h p hp name => h name p hp, fun h name p hp => h p hp name⟩

end References

end DropTable
