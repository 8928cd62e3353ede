import DropTable.Numeral.Binary64
import DropTable.Proofs.Table.Samplers
import DropTable.Scalar.Binary64
/-!
# Updates of running sums leave no trace

Where every level of a tree keeps running sums, a run of calls ends in the tree that is created
afresh with the final bindings, whatever the arithmetic.  The final bindings follow from the last
value of each variable, so that changes of different variables may be made in any order.
-/

namespace DropTable

variable {α : Type}

/-- The value that a call gives to a variable. -/
def Call.value? (name : String) : Call α → Option α
  | .update other value => if other = name then some value else none
  | .rebuild => none

/-- The last value that calls give to a variable. -/
def lastValue? (calls : List (Call α)) (name : String) : Option α :=
  (calls.filterMap (Call.value? name)).getLast?

theorem lastValue?_append (calls more : List (Call α)) (name : String) :
    lastValue? (calls ++ more) name = (lastValue? more name).or (lastValue? calls name) := by
  rw [lastValue?, List.filterMap_append, List.getLast?_append]
  rfl

private theorem lastValue?_filter_isUpdate (calls : List (Call α)) (name : String) :
    lastValue? (calls.filter Call.isUpdate) name = lastValue? calls name := by
  have hvalue : ∀ call : Call α, (if call.isUpdate = true then call.value? name else none) =
      call.value? name := by
    intro call
    cases call <;> rfl
  simp only [lastValue?, List.filterMap_filter, hvalue]

namespace Plan

theorem getElem?_currentBindings (p : Plan α) (name : String) :
    p.currentBindings[name]? = (lastValue? p.calls name).or p.bindings[name]? := by
  obtain ⟨config, bindings, lines, calls⟩ := p
  induction calls using List.reverseRecOn with
  | nil => rfl
  | append_singleton calls call ih =>
      have hconcat := currentBindings_concat ⟨config, bindings, lines, calls⟩ call
      rw [hconcat, lastValue?_append]
      cases call with
      | rebuild => exact ih
      | update other value =>
          simp only [Std.ExtTreeMap.getElem?_insert, ih]
          by_cases hname : other = name <;> simp [lastValue?, Call.value?, hname]

private theorem currentBindings_congr {p : Plan α} {calls : List (Call α)}
    (h : ∀ name, lastValue? calls name = lastValue? p.calls name) :
    ({ p with calls } : Plan α).currentBindings = p.currentBindings := by
  apply Std.ExtTreeMap.ext_getElem?
  intro name
  rw [getElem?_currentBindings, getElem?_currentBindings, h]

theorem lastValue?_receive (p : Plan α) (calls : List (Call α)) (name : String) :
    lastValue? (p.receive calls).calls name =
      (lastValue? calls name).or (lastValue? p.calls name) := by
  rw [receive, lastValue?_append, lastValue?_filter_isUpdate]

theorem renewed_congr (p : Plan α) {calls : List (Call α)}
    (h : ∀ name, lastValue? calls name = lastValue? p.calls name) :
    ({ p with calls } : Plan α).renewed = p.renewed := by
  induction p using nested_induction generalizing calls with
  | step p ih =>
      have hlines : p.lines.map (renewLine calls) = p.lines.map (renewLine p.calls) := by
        apply List.map_congr_left
        rintro ⟨id, formula, nested⟩ hline
        cases nested with
        | none => rfl
        | some inner =>
            have hinner : (inner.receive calls).renewed = (inner.receive p.calls).renewed := by
              refine @ih _ hline inner rfl (inner.receive calls).calls ?_
              intro name
              rw [lastValue?_receive, lastValue?_receive, h]
            simp [renewLine, hinner]
      rw [renewed_eq, renewed_eq, currentBindings_congr h]
      simp only [hlines]

variable [Scalar α] [Numeral α]

/-- Whether all levels keep running sums. -/
def KeepsSums (p : Plan α) : Prop :=
  ∀ path level, p.level? path = some level → level.config.strategy = .cumulative

theorem keepsSums_iff {p : Plan α} :
    p.KeepsSums ↔
      p.config.strategy = .cumulative ∧
        ∀ line ∈ p.lines, ∀ inner, line.nested = some inner →
          (inner.receive p.calls).KeepsSums := by
  constructor
  · intro h
    refine ⟨h [] p rfl, ?_⟩
    intro line hline inner hinner path level hlevel
    obtain ⟨position, hposition⟩ := List.getElem?_of_mem (mem_arranged.2 hline)
    apply h (position :: path)
    simp [level?, inner?, hposition, hinner, hlevel]
  · intro h path level hlevel
    cases path with
    | nil =>
        cases hlevel
        exact h.1
    | cons position path =>
        obtain ⟨inner, hinner, hlevel⟩ := Option.bind_eq_some_iff.1 hlevel
        rw [inner?] at hinner
        obtain ⟨nested, hnested, rfl⟩ := Option.map_eq_some_iff.1 hinner
        obtain ⟨line, hline, hnested⟩ := Option.bind_eq_some_iff.1 hnested
        have hmem := mem_arranged.1 (List.mem_of_getElem? hline)
        exact h.2 line hmem nested hnested path level hlevel

theorem config_level? (p : Plan α) (calls : List (Call α)) (path : List Nat) :
    (({ p with calls } : Plan α).level? path).map (·.config) =
      (p.level? path).map (·.config) := by
  induction path generalizing p calls with
  | nil => rfl
  | cons position path ih =>
      have hinner : ({ p with calls } : Plan α).inner? position =
          (p.arranged[position]?.bind (·.nested)).map (·.receive calls) := rfl
      rw [level?, level?, hinner, inner?]
      cases p.arranged[position]?.bind (·.nested) with
      | none => rfl
      | some inner => exact (ih inner _).trans (ih inner _).symm

theorem KeepsSums.with_calls {p : Plan α} (h : p.KeepsSums) (calls : List (Call α)) :
    ({ p with calls } : Plan α).KeepsSums := by
  intro path level hlevel
  have hconfig := config_level? p calls path
  rw [hlevel] at hconfig
  obtain ⟨level', hlevel', hsame⟩ := Option.map_eq_some_iff.1 hconfig.symm
  have hstrategy := h path level' hlevel'
  simp only at hsame
  rwa [hsame] at hstrategy

theorem KeepsSums.everywhere_current {p : Plan α} {t : Table α} (h : p.KeepsSums)
    (hbuild : p.build = .ok t) : t.Everywhere Table.Current := by
  intro path level hlevel
  obtain ⟨q, hq, hlevel⟩ := build_of_level hbuild hlevel
  exact current_of_cumulative hlevel (h path q hq)

theorem KeepsSums.build_renewed {p : Plan α} {t : Table α} (h : p.KeepsSums)
    (hbuild : p.build = .ok t) : p.renewed.build = .ok t := by
  rw [Plan.build_renewed hbuild, (Table.refresh_eq_self_iff t).2 (h.everywhere_current hbuild)]

/-- With running sums at every level, a run of calls ends in the tree that is created afresh with
the final bindings of each level.  Only the last value of each variable matters, and not the order
in which different variables are changed. -/
theorem replay_of_keepsSums {p : Plan α} {t : Table α} (hsums : p.KeepsSums)
    (h : p.build = .ok t) :
    p.renewed.build = .ok t ∧
      ∀ calls, (∀ name, lastValue? calls name = lastValue? p.calls name) →
        ({ p with calls } : Plan α).build = .ok t := by
  refine ⟨hsums.build_renewed h, ?_⟩
  intro calls hcalls
  obtain ⟨created, hcreate, -⟩ := build_eq_ok_iff.1 h
  have hbuild : ({ p with calls } : Plan α).build =
      .ok (calls.foldl Call.perform created) :=
    build_eq_ok_iff.2 ⟨created, (create_calls p calls).trans hcreate, rfl⟩
  have hfresh := (hsums.with_calls calls).build_renewed hbuild
  rw [renewed_congr p hcalls, hsums.build_renewed h] at hfresh
  rw [hbuild, hfresh]

/-- The gold may be found before the luck turns, and the luck may turn twice. -/
theorem replay_of_keepsSums_pouch :
    let p : Plan Float := pouch .cumulative .cumulative [.update "luck" 2, .update "gold" 3]
    p.KeepsSums ∧
      ∃ t, p.build = .ok t ∧ p.renewed.build = .ok t ∧
        ({ p with calls := [.update "luck" 5, .update "gold" 3, .update "luck" 2] } :
          Plan Float).build = .ok t := by
  intro p
  have hsums : p.KeepsSums := by
    have hgems : ((gems .cumulative : Plan Float).receive p.calls).KeepsSums :=
      keepsSums_iff.2 ⟨rfl, by simp [gems, receive]⟩
    exact keepsSums_iff.2 ⟨rfl, by simpa [p, pouch] using hgems⟩
  obtain ⟨t, ht⟩ : ∃ t, p.build = .ok t := exists_of_isOk (by decide +kernel)
  obtain ⟨hfresh, hcalls⟩ := replay_of_keepsSums hsums ht
  refine ⟨hsums, t, ht, hfresh, hcalls _ ?_⟩
  intro name
  by_cases hluck : name = "luck"
  · simp [p, pouch, lastValue?, Call.value?, hluck]
  · simp [p, pouch, lastValue?, Call.value?, Ne.symm hluck]

end Plan

end DropTable
