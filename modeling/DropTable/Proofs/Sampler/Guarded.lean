import Mathlib.Data.Nat.PSub
import DropTable.Proofs.Random
import DropTable.Proofs.Sampler.Search
import DropTable.Proofs.Sampler.Sizes
/-!
# Selections with guarded accesses

The selections once more, with every place looked up in a list and every difference of indices under
guard: there is no result if a place lies past the end or a difference is negative.  A sampler of
the right size passes all guards, selects the same, and selects one of its indices.
-/

namespace DropTable

variable {α : Type} [Scalar α]

/-- The residual of a draw, given sums that may be missing. -/
def Draw.guardedResidual (total : α) (sumTo : Nat → Option α) (index : Nat) (draw : α) :
    Option α := do
  let start ← match index with
    | 0 => some 0
    | previous + 1 => (sumTo previous).map (· / total)
  let stop ← (sumTo index).map (· / total)
  return if stop ≤ start then 0 else clampResidual ((draw - start) / (stop - start))

private theorem Draw.guardedResidual_eq (total : α) (sumTo : Nat → α) (index : Nat) (draw : α) :
    guardedResidual total (fun index => some (sumTo index)) index draw =
      some (residual total sumTo index draw) := by
  cases index <;> rfl

/-! ## Running sums -/

namespace Cumulative

def guardedSelect (c : Cumulative α) (draw : α) : Option (Option Nat) :=
  match Draw.target? draw c.total with
  | none => some none
  | some target =>
    (c.sums.length.ppred).map fun last =>
      some (min (c.sums.takeWhile (· < target)).length last)

theorem guardedSelect_eq {c : Cumulative α} (h : (Sampler.cumulative c).Sized) (hpos : 0 < c.size)
    (draw : α) : c.guardedSelect draw = some (c.select? draw) := by
  have hlast : c.sums.length.ppred = some (c.sums.length - 1) :=
    Nat.ppred_eq_pred (h.symm ▸ hpos)
  unfold guardedSelect select?
  cases Draw.target? draw c.total with
  | none => rfl
  | some target => simp [hlast]

theorem select?_lt {c : Cumulative α} (h : (Sampler.cumulative c).Sized) (hpos : 0 < c.size)
    {draw : α} {index : Nat} (hselect : c.select? draw = some index) : index < c.size := by
  obtain ⟨target, -, rfl⟩ := Option.map_eq_some_iff.1 hselect
  have hlength : c.sums.length = c.size := h
  omega

end Cumulative

/-! ## Binary indexed trees -/

namespace Fenwick

/-- The sum over the nodes of a descent, on top of what comes before. -/
def guardedSum (nodes : List α) (node : Nat) (sum : α) : Option α :=
  if 0 < node then
    match nodes[node - 1]?, _h : node.psub (lowBit node) with
    | some held, some rest => guardedSum nodes rest (sum + held)
    | _, _ => none
  else some sum
termination_by node
decreasing_by
  have hbit := lowBit_pos ‹0 < node›
  have hrest := Nat.psub_eq_some.1 ‹_›
  omega

private theorem guardedSum_eq {nodes : List α} {node : Nat} (h : node ≤ nodes.length) (sum : α) :
    guardedSum nodes node sum =
      some ((descend node).foldl (fun sum node => sum + nodes.getD (node - 1) 0) sum) := by
  fun_induction descend node generalizing sum with
  | case1 node hpos ih =>
      have hnode : nodes[node - 1]? = some (nodes.getD (node - 1) 0) := by
        have hlt : node - 1 < nodes.length := by omega
        rw [List.getElem?_eq_getElem hlt, List.getD_eq_getElem _ _ hlt]
      have hrest : node.psub (lowBit node) = some (node - lowBit node) :=
        Nat.psub_eq_sub (lowBit_le node)
      rw [guardedSum, if_pos hpos]
      split
      case h_1 hheld hrest' =>
        cases hnode.symm.trans hheld
        cases hrest.symm.trans hrest'
        exact ih (by omega) _
      case h_2 hnot => exact absurd hrest (hnot _ _ hnode)
  | case2 node hzero => rw [guardedSum, if_neg hzero]; rfl

def guardedSumTo (f : Fenwick α) (index : Nat) : Option α :=
  guardedSum f.nodes (min (index + 1) f.size) 0

def guardedTotal (f : Fenwick α) : Option α :=
  if f.size = 0 then some 0 else (f.size.ppred).bind f.guardedSumTo

/-- The search in an interval whose numbers may be out of reach. -/
def guardedSearch (reaches : Nat → Option Bool) (low high : Nat) : Option Nat :=
  if low < high then
    let middle := (low + high) / 2
    match reaches middle with
    | some true => guardedSearch reaches low middle
    | some false => guardedSearch reaches (middle + 1) high
    | none => none
  else some low
termination_by high - low

private theorem guardedSearch_eq (reaches : Nat → Bool) (low high : Nat) :
    guardedSearch (fun index => some (reaches index)) low high =
      some (search reaches low high) := by
  fun_induction search reaches low high with
  | case1 low high hlt middle hreaches ih =>
      simp only [middle] at hreaches ih ⊢
      rw [guardedSearch, if_pos hlt]
      simp only [hreaches, ih]
  | case2 low high hlt middle hreaches ih =>
      simp only [middle, Bool.not_eq_true] at hreaches ih ⊢
      rw [guardedSearch, if_pos hlt]
      simp only [hreaches, ih]
  | case3 low high hlt => rw [guardedSearch, if_neg hlt]

def guardedSelect (f : Fenwick α) (draw : α) : Option (Option Nat) := do
  match Draw.target? draw (← f.guardedTotal) with
  | none => return none
  | some target =>
    let last ← f.size.ppred
    guardedSearch (fun index => (f.guardedSumTo index).map fun sum => target ≤ sum) 0 last

variable {f : Fenwick α} (h : (Sampler.fenwick f).Sized)
include h

private theorem guardedSumTo_eq (index : Nat) : f.guardedSumTo index = some (f.sumTo index) := by
  have hlength : f.nodes.length = f.size := h
  exact guardedSum_eq (by omega) 0

private theorem guardedTotal_eq : f.guardedTotal = some f.total := by
  unfold guardedTotal total
  split
  case isTrue => rfl
  case isFalse hpos =>
    have hlast : f.size.ppred = some (f.size - 1) := Nat.ppred_eq_pred (Nat.pos_of_ne_zero hpos)
    rw [hlast, Option.bind_some, guardedSumTo_eq h]

theorem guardedSelect_eq (hpos : 0 < f.size) (draw : α) :
    f.guardedSelect draw = some (f.select? draw) := by
  have hlast : f.size.ppred = some (f.size - 1) := Nat.ppred_eq_pred hpos
  simp only [guardedSelect, select?, guardedTotal_eq h, guardedSumTo_eq h, Option.map_some,
    Option.bind_eq_bind, Option.bind_some]
  cases Draw.target? draw f.total with
  | none => rfl
  | some target => simp [hlast, guardedSearch_eq]

omit h in
theorem select?_lt (hpos : 0 < f.size) {draw : α} {index : Nat}
    (hselect : f.select? draw = some index) : index < f.size := by
  obtain ⟨target, -, rfl⟩ := Option.map_eq_some_iff.1 hselect
  have hmem := search_mem (fun index => decide (target ≤ f.sumTo index)) (Nat.zero_le (f.size - 1))
  omega

end Fenwick

/-! ## Alias buckets -/

namespace Alias

/-- The decision between the two indices of a bucket, if there is such a bucket. -/
def guardedToss (a : Alias α) (bucket : Nat) (coin : α) : Option (Pick α) :=
  if bucket < a.buckets.length then some (a.toss bucket coin) else none

def guardedPick (a : Alias α) (draw : α) : Option (Option (Pick α)) :=
  if a.answers draw then do
    let scaled := Scalar.clamp 0 1 draw * Scalar.ofNat a.buckets.length
    let last ← a.buckets.length.ppred
    let bucket := min (Scalar.floor scaled) last
    a.guardedToss bucket (scaled - Scalar.ofNat bucket)
  else some none

/-- There is no number below zero to be drawn. -/
def guardedPickWith (a : Alias α) (draw : α) (words : Words) :
    Option (Option (Pick α) × Words) :=
  if a.answers draw then
    if 0 < a.buckets.length then
      let (bucket, words) := words.below a.buckets.length
      (a.guardedToss bucket (Scalar.clamp 0 1 draw)).map fun pick => (some pick, words)
    else none
  else some (none, words)

theorem length_pos_of_answers {a : Alias α} {draw : α} (h : a.answers draw = true) :
    0 < a.buckets.length := by
  simp only [answers, Bool.and_eq_true, Bool.not_eq_true', List.isEmpty_eq_false_iff] at h
  exact List.length_pos_of_ne_nil h.1

private theorem guardedToss_eq {a : Alias α} {bucket : Nat} (h : bucket < a.buckets.length)
    (coin : α) :
    a.guardedToss bucket coin = some (a.toss bucket coin) :=
  if_pos h

theorem guardedPick_eq (a : Alias α) (draw : α) : a.guardedPick draw = some (a.pick? draw) := by
  unfold guardedPick pick?
  split
  case isFalse => rfl
  case isTrue h =>
    have hpos := length_pos_of_answers h
    have hlast : a.buckets.length.ppred = some (a.buckets.length - 1) := Nat.ppred_eq_pred hpos
    simp only [hlast, Option.bind_eq_bind, Option.bind_some]
    rw [guardedToss_eq (by omega)]
    rfl

theorem guardedPickWith_eq (a : Alias α) (draw : α) (words : Words) :
    a.guardedPickWith draw words = some (a.pickWith draw words) := by
  unfold guardedPickWith pickWith
  split
  case isFalse => rfl
  case isTrue h =>
    have hpos := length_pos_of_answers h
    simp only [if_pos hpos, guardedToss_eq (Words.below_lt hpos words), Option.map_some]

variable {a : Alias α} (h : (Sampler.aliasBuckets a).Sized)
include h

private theorem index_toss_lt {bucket : Nat} (hbucket : bucket < a.buckets.length) (coin : α) :
    (a.toss bucket coin).index < a.size := by
  have hother := h.2 _ (List.getElem_mem hbucket)
  have hown : bucket < a.size := hbucket.trans_le h.1
  unfold toss
  rw [List.getD_eq_getElem _ _ hbucket]
  simp only
  split_ifs
  · exact hown
  · exact hother
  · exact hother

private theorem pick?_lt {draw : α} {pick : Pick α} (hpick : a.pick? draw = some pick) :
    pick.index < a.size := by
  obtain ⟨hanswers, hpick⟩ := Option.ite_none_right_eq_some.1 hpick
  cases hpick
  have hpos := length_pos_of_answers hanswers
  exact index_toss_lt h (by omega) _

private theorem pickWith_lt {draw : α} {words : Words} {pick : Pick α}
    (hpick : (a.pickWith draw words).1 = some pick) : pick.index < a.size := by
  unfold pickWith at hpick
  split at hpick
  case isFalse => contradiction
  case isTrue hanswers =>
    cases hpick
    exact index_toss_lt h (Words.below_lt (length_pos_of_answers hanswers) words) _

end Alias

/-! ## Samplers -/

namespace Sampler

def guardedTotal : Sampler α → Option α
  | .fenwick f => f.guardedTotal
  | s => some s.total

def guardedSumTo : Sampler α → Nat → Option α
  | .fenwick f => f.guardedSumTo
  | s => fun index => some (s.sumTo index)

def guardedSelect (s : Sampler α) (draw : α) : Option (Option Nat) :=
  match s with
  | .cumulative c => c.guardedSelect draw
  | .fenwick f => f.guardedSelect draw
  | .aliasBuckets a => (a.guardedPick draw).map (Option.map Pick.index)

def guardedPick (s : Sampler α) (draw : α) : Option (Option (Pick α)) :=
  match s with
  | .aliasBuckets a => a.guardedPick draw
  | _ => do
    match ← s.guardedSelect draw with
    | none => return none
    | some index =>
      let total ← s.guardedTotal
      let residual ← Draw.guardedResidual total s.guardedSumTo index draw
      return some ⟨index, residual⟩

def guardedPickWith (s : Sampler α) (draw : α) (words : Words) :
    Option (Option (Pick α) × Words) :=
  match s with
  | .aliasBuckets a => a.guardedPickWith draw words
  | _ => (s.guardedPick draw).map (·, words)

def guardedSelectWith (s : Sampler α) (draw : α) (words : Words) : Option (Option Nat × Words) :=
  match s with
  | .aliasBuckets a =>
    (a.guardedPickWith draw words).map fun (pick, words) => (pick.map Pick.index, words)
  | _ => (s.guardedSelect draw).map (·, words)

namespace Sized

variable {s : Sampler α} (h : s.Sized)
include h

private theorem guardedTotal_eq : s.guardedTotal = some s.total := by
  cases s with
  | fenwick f => exact Fenwick.guardedTotal_eq h
  | _ => rfl

private theorem guardedSumTo_eq : s.guardedSumTo = fun index => some (s.sumTo index) := by
  cases s with
  | fenwick f => exact funext (Fenwick.guardedSumTo_eq h)
  | _ => rfl

variable (hpos : 0 < s.size)
include hpos

theorem guardedSelect_eq (draw : α) : s.guardedSelect draw = some (s.select? draw) := by
  cases s with
  | cumulative c => exact Cumulative.guardedSelect_eq h hpos draw
  | fenwick f => exact Fenwick.guardedSelect_eq h hpos draw
  | aliasBuckets a => rw [guardedSelect, a.guardedPick_eq]; rfl

theorem guardedPick_eq (draw : α) : s.guardedPick draw = some (s.pick? draw) := by
  have hselect := h.guardedSelect_eq hpos draw
  have htotal := h.guardedTotal_eq
  have hsumTo := h.guardedSumTo_eq
  cases s with
  | aliasBuckets a => exact a.guardedPick_eq draw
  | _ =>
      simp only [guardedPick, pick?, hselect, htotal, hsumTo, Draw.guardedResidual_eq]
      cases select? _ draw <;> rfl

theorem guardedPickWith_eq (draw : α) (words : Words) :
    s.guardedPickWith draw words = some (s.pickWith draw words) := by
  have hpick := h.guardedPick_eq hpos draw
  cases s with
  | aliasBuckets a => exact a.guardedPickWith_eq draw words
  | _ => simp only [guardedPickWith, pickWith, hpick, Option.map_some]

theorem guardedSelectWith_eq (draw : α) (words : Words) :
    s.guardedSelectWith draw words = some (s.selectWith draw words) := by
  have hselect := h.guardedSelect_eq hpos draw
  cases s with
  | aliasBuckets a => rw [guardedSelectWith, a.guardedPickWith_eq]; rfl
  | _ => simp only [guardedSelectWith, selectWith, hselect, Option.map_some]

theorem select?_lt {draw : α} {index : Nat} (hselect : s.select? draw = some index) :
    index < s.size := by
  cases s with
  | cumulative c => exact Cumulative.select?_lt h hpos hselect
  | fenwick f => exact Fenwick.select?_lt hpos hselect
  | aliasBuckets a =>
      obtain ⟨pick, hpick, rfl⟩ := Option.map_eq_some_iff.1 hselect
      exact Alias.pick?_lt h hpick

theorem selectWith_lt {draw : α} {words : Words} {index : Nat}
    (hselect : (s.selectWith draw words).1 = some index) : index < s.size := by
  cases s with
  | aliasBuckets a =>
      obtain ⟨pick, hpick, rfl⟩ := Option.map_eq_some_iff.1 hselect
      exact Alias.pickWith_lt h hpick
  | _ => exact h.select?_lt hpos hselect

end Sized

end Sampler

end DropTable
