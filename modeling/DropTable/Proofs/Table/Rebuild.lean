import DropTable.Proofs.Table.Replay
import DropTable.Table.Drop
/-!
# What a rebuild brings up to date

A rebuild makes the sampler of the outermost level current.  Changes of variables reach every
level, but a rebuild does not, so that it leaves the tree that is created afresh exactly when the
levels below were current before.  Running sums always are, and buckets are not.
-/

namespace DropTable.Plan

variable {α : Type} [Scalar α] [Numeral α]

private theorem everywhere_current_nested {p : Plan α} {t : Table α} (h : p.build = .ok t)
    (hsums : ∀ line ∈ p.lines, ∀ inner, line.nested = some inner → inner.KeepsSums) :
    ∀ e ∈ t.entries, ∀ inner, e.nested = some inner → inner.Everywhere Table.Current := by
  refine (builds_of_build h).forall_entries hsums ?_
  rintro ⟨id, formula, plan⟩ e hline he inner hinner
  have hnested := he.nested
  rw [hinner] at hnested
  cases hnested with
  | some hbuild => exact ((hline _ rfl).with_calls _).everywhere_current hbuild

/-- A rebuild leaves the tree that is created afresh with the current bindings exactly when the
levels below the outermost are current already, as they are if all of them keep running sums. -/
theorem rebuild_of_build {p : Plan α} {t : Table α} (h : p.build = .ok t) :
    t.rebuild.Current ∧ ∃ fresh, p.renewed.build = .ok fresh ∧
      (t.rebuild = fresh ↔
        ∀ e ∈ t.entries, ∀ inner, e.nested = some inner → inner.Everywhere Table.Current) ∧
      ((∀ line ∈ p.lines, ∀ inner, line.nested = some inner → inner.KeepsSums) →
        ∀ draw, t.rebuild.drop draw = fresh.drop draw) := by
  have hrebuild := Table.rebuild_eq_refresh_iff t
  refine ⟨rfl, t.refresh, build_renewed h, hrebuild, ?_⟩
  intro hsums draw
  rw [hrebuild.2 (everywhere_current_nested h hsums)]

/-- A tree around a pouch that keeps running sums is as good as new. -/
theorem rebuild_of_build_pouch :
    let p : Plan Float := pouch .aliasBuckets .cumulative [.update "luck" 0, .update "gold" 1]
    ∃ t fresh, p.build = .ok t ∧ p.renewed.build = .ok fresh ∧
      ∀ draw, t.rebuild.drop draw = fresh.drop draw := by
  intro p
  obtain ⟨t, ht⟩ : ∃ t, p.build = .ok t := exists_of_isOk (by decide +kernel)
  obtain ⟨-, fresh, hfresh, -, hdrop⟩ := rebuild_of_build ht
  refine ⟨t, fresh, ht, hfresh, hdrop ?_⟩
  have hgems : (gems .cumulative : Plan Float).KeepsSums := keepsSums_iff.2 ⟨rfl, by simp [gems]⟩
  simpa [p, pouch] using hgems

/-- The pearl comes within reach in place of the ruby.  The buckets in the pouch do not notice, and
a rebuild of the table around the pouch does not fill them anew. -/
theorem rebuild_stale_pouch :
    let p : Plan Float := pouch .cumulative .aliasBuckets [.update "luck" 0, .update "gold" 1]
    ∃ t fresh, p.build = .ok t ∧ p.renewed.build = .ok fresh ∧
      (t.rebuild.drop 0.5).id = ⟨"ruby"⟩ ∧ (fresh.drop 0.5).id = ⟨"pearl"⟩ := by
  intro p
  have hstale : p.build.map (fun t => (t.rebuild.drop 0.5).id) = .ok ⟨"ruby"⟩ := by
    decide +kernel
  have hanew : p.renewed.build.map (fun t => (t.drop 0.5).id) = .ok ⟨"pearl"⟩ := by
    decide +kernel
  obtain ⟨t, ht, hruby⟩ := exists_of_map_eq_ok hstale
  obtain ⟨fresh, hfresh, hpearl⟩ := exists_of_map_eq_ok hanew
  exact ⟨t, fresh, ht, hfresh, hruby, hpearl⟩

end DropTable.Plan
