import DropTable.Proofs.Sampler.RunningSums
import DropTable.Proofs.Table.Levels
import DropTable.Proofs.Table.Renewal
/-!
# The samplers of a tree

Calls touch a sampler in two ways only, by building it from weights and by updating one index.  What
both of them keep is therefore true of the sampler of every level that a plan builds.
-/

namespace DropTable

variable {α : Type} [Scalar α]

/-- The effective weights of the entries. -/
def Table.pieces (t : Table α) : List α :=
  t.entries.map fun e => Draw.effective e.weight

variable [Numeral α]

namespace Table

private theorem SameFrame.exists_entry {t t' : Table α} (h : t.SameFrame t') {position : Nat}
    {e : Entry α} (he : t.entries[position]? = some e) :
    ∃ e', t'.entries[position]? = some e' ∧ t'.value e' = t.value e := by
  have hframes := congrArg (·[position]?) h.entries
  simp only [List.getElem?_map, he, Option.map_some, Option.map_eq_some_iff] at hframes
  obtain ⟨e', he', hframe⟩ := hframes
  refine ⟨e', he', ?_⟩
  rw [EntryOf.frame, EntryOf.frame, Prod.mk.injEq, Prod.mk.injEq] at hframe
  rw [value, value, h.config, h.bindings, hframe.2.1]

private theorem Stale.sampler_keeps {K : Sampler α → Prop} {t u : Table α} {positions : List Nat}
    (h : t.Stale positions) (hframe : t.SameFrame u) (hcurrent : u.Stale [])
    (hupdate : ∀ s position e, u.entries[position]? = some e → K s → K (s.update position e.weight))
    (hsampler : K t.sampler) : K (t.reweighAll positions).sampler := by
  induction positions generalizing t with
  | nil => exact hsampler
  | cons position positions ih =>
      have hstep : K (t.reweigh position).1.sampler := by
        obtain ⟨-, hreweigh⟩ | ⟨e, weight, he, hvalue, hreweigh⟩ := h.reweigh_cases
        · rw [hreweigh]
          exact hsampler
        · obtain ⟨e', he', hsame⟩ := hframe.exists_entry he
          have hweight := hcurrent.current position e' he' (by simp)
          rw [hsame, hvalue, Except.ok.injEq] at hweight
          rw [hreweigh, hweight]
          exact hupdate _ position e' he' hsampler
      exact ih h.reweigh (h.sameFrame_reweigh.symm.trans hframe) hstep

theorem Coherent.sampler_update {K : Sampler α → Prop} {t : Table α} (h : t.Coherent) (name : String)
    (value : α)
    (hupdate : ∀ s position e, (t.update name value).1.entries[position]? = some e → K s →
      K (s.update position e.weight))
    (hsampler : K t.sampler) : K (t.update name value).1.sampler := by
  have hstale := (h.passOn name value).stale_insert name value
  obtain ⟨hframe, hcurrent⟩ := hstale.reweighAll
  rw [update_eq, assign_fst] at hupdate ⊢
  exact hstale.sampler_keeps hframe hcurrent hupdate hsampler

end Table

namespace Plan

theorem sampler_of_build {K : Sampler α → Prop}
    (hbuild : ∀ strategy weights, K (.build strategy weights))
    (hupdate : ∀ s index weight, K s → K (s.update index weight)) {p : Plan α} {t : Table α}
    (h : p.build = .ok t) : K t.sampler := by
  obtain ⟨created, hcreate, rfl⟩ := build_eq_ok_iff.1 h
  have hcoherent := (Builds.create hcreate).coherent
  obtain ⟨definitions, -, hcreate⟩ := create_eq_ok_iff.1 hcreate
  obtain ⟨-, -, weighed, -, -, rfl⟩ := Table.create_eq_ok_iff.1 hcreate
  have hrun : ∀ (calls : List (Call α)) (t : Table α), t.Coherent → K t.sampler →
      K (calls.foldl Call.perform t).sampler := by
    intro calls
    induction calls with
    | nil => exact fun t _ ht => ht
    | cons call calls ih =>
        intro t hcoherent ht
        cases call with
        | update name value =>
            refine ih _ (hcoherent.update name value) (hcoherent.sampler_update name value ?_ ht)
            exact fun s position e _ => hupdate s position e.weight
        | rebuild => exact ih _ hcoherent.rebuild (hbuild _ _)
  exact hrun p.calls _ hcoherent (hbuild _ _)

theorem build_of_level {p : Plan α} {t : Table α} (h : p.build = .ok t) {path : List Nat}
    {level : Table α} (hlevel : t.level? path = some level) :
    ∃ q, p.level? path = some q ∧ q.build = .ok level := by
  induction path generalizing p t with
  | nil =>
      cases hlevel
      exact ⟨p, rfl, h⟩
  | cons position path ih =>
      have hinner := (builds_of_build h).inner? position
      rw [Table.level?] at hlevel
      rw [Plan.level?]
      generalize t.entries[position]?.bind (·.nested) = table at hinner hlevel
      generalize p.inner? position = inner at hinner ⊢
      cases hinner with
      | none => contradiction
      | some hbuild => exact ih hbuild hlevel

/-! ## Running sums -/

theorem current_of_cumulative {p : Plan α} {t : Table α} (h : p.build = .ok t)
    (hstrategy : p.config.strategy = .cumulative) : t.Current := by
  let K : Sampler α → Prop := fun s => ∀ c, s = .cumulative c → c.Summed
  have hsummed : K t.sampler := by
    apply sampler_of_build (K := K) _ _ h
    · rintro strategy weights c hc
      cases strategy <;> cases hc
      exact Cumulative.summed_ofWeights weights
    · rintro s index weight hs c hc
      cases s <;> cases hc
      exact (hs _ rfl).update index weight
  have hslotted := (builds_of_build h).coherent.slotted
  have hconfig : t.config.strategy = .cumulative := by
    rw [(builds_of_build h).config, hstrategy]
  have hweights := hslotted.weights (by rw [hconfig]; decide)
  have hkind := hslotted.strategy
  rw [hconfig] at hkind
  rw [Table.Current, hconfig]
  cases hsampler : t.sampler with
  | fenwick f => rw [hsampler] at hkind; contradiction
  | aliasBuckets a => rw [hsampler] at hkind; contradiction
  | cumulative c =>
      have hsums := hsummed c hsampler
      rw [hsampler] at hweights
      obtain ⟨weights, sums⟩ := c
      simp only [Sampler.weights] at hweights
      rw [Cumulative.Summed] at hsums
      simp only at hsums
      subst hsums hweights
      simp [Sampler.build, Cumulative.ofWeights, List.map_map, Function.comp_def]

end Plan

end DropTable
