import DropTable.Fault
/-!
# Results without faults

When a computation that may report faults comes out well, each of its parts did.
-/

namespace DropTable

theorem bind_eq_ok_iff {ε β γ : Type} {x : Except ε β} {f : β → Except ε γ} {result : γ} :
    x >>= f = .ok result ↔ ∃ value, x = .ok value ∧ f value = .ok result := by
  cases x <;> simp [bind, Except.bind]

theorem exists_of_isOk {ε β : Type} {x : Except ε β} (h : x.isOk = true) :
    ∃ value, x = .ok value := by
  cases x with
  | error fault => contradiction
  | ok value => exact ⟨value, rfl⟩

theorem exists_of_map_eq_ok {ε β γ : Type} {x : Except ε β} {f : β → γ} {result : γ}
    (h : x.map f = .ok result) : ∃ value, x = .ok value ∧ f value = result := by
  cases x with
  | error fault => contradiction
  | ok value => exact ⟨value, rfl, Except.ok.inj h⟩

theorem mapError_eq_ok_iff {ε ε' β : Type} {f : ε → ε'} {result : Except ε β} {value : β} :
    result.mapError f = .ok value ↔ result = .ok value := by
  cases result with
  | error fault => exact ⟨nofun, nofun⟩
  | ok result => constructor <;> rintro ⟨⟩ <;> rfl

namespace FaultList

theorem check_eq_ok_iff {β : Type} {faults : List Fault} {value result : β} :
    check faults value = .ok result ↔ faults = [] ∧ value = result := by
  unfold check
  cases hfaults : ofList? faults with
  | none =>
      rw [ofList?_eq_none_iff] at hfaults
      simp [hfaults]
  | some nonempty =>
      have hne : faults ≠ [] := by
        rintro rfl
        contradiction
      simp [hne]

theorem exists_check_eq_error {β : Type} {faults : List Fault} (h : faults ≠ [])
    (value : β) :
    ∃ reported, check faults value = .error reported ∧ reported.toList = faults := by
  cases hfaults : ofList? faults with
  | none => exact absurd (ofList?_eq_none_iff.1 hfaults) h
  | some reported =>
      refine ⟨reported, ?_, toList_of_ofList? hfaults⟩
      simp only [check, hfaults]

end FaultList

end DropTable
