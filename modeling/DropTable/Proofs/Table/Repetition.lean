import DropTable.Proofs.Sampler.Repetition
import DropTable.Proofs.Table.Replay
import DropTable.Proofs.Table.Reports
/-!
# The same change twice

A change that is made a second time finds the variable bound to its value and every weight and slot
as the first one has left them, at every level of the tree.  It writes the same binding again and
hands each slot the weight that it holds already, and so leaves the whole tree as it is, whatever
rounding has made of it before.
-/

namespace DropTable

namespace Table

variable {α : Type}

/-- A table carries tables, so that Lean does not see by itself that its fields are all of it. -/
private theorem mk_eta (t : Table α) :
    (⟨t.entries, t.bindings, t.references, t.sampler, t.config⟩ : Table α) = t := by
  cases t
  rfl

variable [Scalar α] [Numeral α]

/-- A level that a change has nothing to do for: the variable has its value already, and the sampler
takes the weights of the entries without changing. -/
structure UpToDate (name : String) (value : α) (t : Table α) : Prop where
  coherent : t.Coherent
  binding : t.bindings[name]? = some value
  sampler : ∀ position e, t.entries[position]? = some e →
    t.sampler.update position e.weight = t.sampler

variable {t : Table α} {name : String} {value : α}

private theorem UpToDate.reweigh_eq_self (h : t.UpToDate name value) (position : Nat) :
    t.reweigh position = (t, []) := by
  cases he : t.entries[position]? with
  | none => exact reweigh_of_none he
  | some e =>
      obtain ⟨hposition, hget⟩ := List.getElem?_eq_some_iff.1 he
      have hentries : t.entries.set position { e with weight := e.weight } = t.entries := by
        rw [← hget, List.set_getElem_self]
      rw [reweigh_of_value he (h.coherent.current e (List.mem_of_getElem? he)), hentries,
        h.sampler position e he, mk_eta]

private theorem UpToDate.reweighAll_eq_self (h : t.UpToDate name value) (positions : List Nat) :
    t.reweighAll positions = t := by
  induction positions with
  | nil => rfl
  | cons position positions ih =>
      calc t.reweighAll (position :: positions)
        _ = (t.reweigh position).1.reweighAll positions := rfl
        _ = t.reweighAll positions := by rw [h.reweigh_eq_self]
        _ = t := ih

private theorem UpToDate.insert_eq_self (h : t.UpToDate name value) :
    t.bindings.insert name value = t.bindings := by
  apply Std.ExtTreeMap.ext_getElem?
  intro other
  rw [Std.ExtTreeMap.getElem?_insert]
  split
  next heq => rw [← Std.LawfulEqCmp.eq_of_compare heq, h.binding]
  next => rfl

private theorem UpToDate.assign_eq_self (h : t.UpToDate name value) :
    t.assign name value = (t, []) := by
  refine Prod.ext ?_ (h.coherent.assign_snd name value)
  rw [assign_fst, h.insert_eq_self, mk_eta, h.reweighAll_eq_self]

private theorem passOn_eq_self_iff {e : Entry α} :
    passOn name value e = e ↔
      ∀ inner, e.nested = some inner → (inner.update name value).1 = inner := by
  obtain ⟨id, program, weight, nested⟩ := e
  cases nested <;> simp [passOn]

private theorem update_fst_eq_self (h : t.Everywhere (UpToDate name value)) :
    (t.update name value).1 = t := by
  induction t using nested_induction with
  | step t ih =>
      obtain ⟨hlevel, hnested⟩ := everywhere_iff.1 h
      have hentries : t.entries.map (passOn name value) = t.entries := by
        refine map_eq_self_iff.2 fun e he => passOn_eq_self_iff.2 fun inner hinner => ?_
        exact ih e he inner hinner (hnested e he inner hinner)
      rw [update_eq, hentries, mk_eta, hlevel.assign_eq_self]

theorem update_eq_self (h : t.Everywhere (UpToDate name value)) :
    t.update name value = (t, []) := by
  have hcoherent : t.Everywhere Coherent := fun path level hlevel => (h path level hlevel).coherent
  exact Prod.ext (update_fst_eq_self h) (update_snd hcoherent name value)

end Table

namespace Plan

theorem lastValue?_level {α : Type} [Scalar α] [Numeral α] {p q : Plan α} {path : List Nat}
    (hlevel : p.level? path = some q) {name : String} {value : α}
    (h : lastValue? p.calls name = some value) : lastValue? q.calls name = some value := by
  induction path generalizing p with
  | nil =>
      cases hlevel
      exact h
  | cons position path ih =>
      obtain ⟨inner, hinner, hlevel⟩ := Option.bind_eq_some_iff.1 hlevel
      obtain ⟨received, -, rfl⟩ := Option.map_eq_some_iff.1 hinner
      refine ih hlevel ?_
      rw [lastValue?_receive, h, Option.some_or]

theorem steady_of_build {p : Plan Float} {t : Table Float} (h : p.build = .ok t) :
    t.sampler.Steady :=
  sampler_of_build Sampler.steady_build (fun _ index weight hs => hs.update index weight) h

private theorem update_sampler_eq_self {p : Plan Float} {t : Table Float} (h : p.build = .ok t)
    {position : Nat} {e : Entry Float} (he : t.entries[position]? = some e) :
    t.sampler.update position e.weight = t.sampler := by
  have hslotted := (builds_of_build h).coherent.slotted
  refine (steady_of_build h).update_eq_self fun hstrategy => ?_
  rw [hslotted.weights (hslotted.strategy ▸ hstrategy), List.getElem?_map, he]
  rfl

theorem upToDate_update {p : Plan Float} {t : Table Float} (h : p.build = .ok t) (name : String)
    (value : Float) : (t.update name value).1.Everywhere (Table.UpToDate name value) := by
  have hbuild := build_concat p (.update name value)
  rw [h] at hbuild
  intro path level hlevel
  obtain ⟨q, hq, hlevel⟩ := build_of_level hbuild hlevel
  have hvalue : lastValue? q.calls name = some value := by
    refine lastValue?_level hq ?_
    simp [lastValue?, Call.value?]
  refine ⟨(builds_of_build hlevel).coherent, ?_, fun _ _ => update_sampler_eq_self hlevel⟩
  rw [(builds_of_build hlevel).bindings, getElem?_currentBindings, hvalue, Option.some_or]

/-- The second of two equal changes leaves the tree as the first one has left it, and has nothing to
report. -/
theorem update_update_of_build {p : Plan Float} {t : Table Float} (h : p.build = .ok t)
    (name : String) (value : Float) :
    (t.update name value).1.update name value = ((t.update name value).1, []) :=
  Table.update_eq_self (upToDate_update h name value)

/-- The coin comes down again behind a sum that has become infinite. -/
theorem update_update_of_build_pouch :
    let p : Plan Float := pouch .fenwick .aliasBuckets [.update "room" 1e308, .update "luck" 1e308]
    ∃ t, p.build = .ok t ∧ t.total.isInf = true ∧
      (t.update "luck" 1).1.update "luck" 1 = ((t.update "luck" 1).1, []) := by
  intro p
  have htotal : p.build.map (fun t => t.total.isInf) = .ok true := by decide +kernel
  obtain ⟨t, ht, hinf⟩ := exists_of_map_eq_ok htotal
  exact ⟨t, ht, hinf, update_update_of_build ht "luck" 1⟩

end Plan

end DropTable
