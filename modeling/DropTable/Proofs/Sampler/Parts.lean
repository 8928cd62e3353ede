import Mathlib.Algebra.Order.Floor.Ring
import Mathlib.Data.Rat.Floor
import Mathlib.Tactic.FieldSimp
import DropTable.Proofs.Sampler.Mass
import DropTable.Sampler
/-!
# The parts of the buckets

The division of a bucket makes two parts of it, one for its own index and one for the other.  Scaled
to the number of buckets, the parts of all buckets lie end to end on the draws from zero to one.  A
part selects its index for all draws and coins in it, and rescales them to draws of their own.
-/

namespace DropTable

/-- A part of a bucket, with the coins from one end up to the other. -/
structure Part where
  bucket : Nat
  index : Nat
  low : Rat
  high : Rat

namespace Part

/-- The draw at which a part begins when there are so many buckets. -/
def start (size : Nat) (p : Part) : Rat :=
  (p.bucket + p.low) / size

def stop (size : Nat) (p : Part) : Rat :=
  (p.bucket + p.high) / size

def length (p : Part) : Rat :=
  p.high - p.low

/-- What is left of a coin in a part, as a draw of its own. -/
def residual (p : Part) (coin : Rat) : Rat :=
  min ((coin - p.low) / p.length) Scalar.lastDraw

end Part

namespace Alias

def bucketAt (a : Alias Rat) (position : Nat) : Bucket Rat :=
  a.buckets.getD position ⟨1, position⟩

/-- The part of a bucket that belongs to its own index. -/
def ownPart (a : Alias Rat) (position : Nat) : Part :=
  ⟨position, position, 0, (a.bucketAt position).share⟩

def otherPart (a : Alias Rat) (position : Nat) : Part :=
  ⟨position, (a.bucketAt position).other, (a.bucketAt position).share, 1⟩

def parts (a : Alias Rat) : List Part :=
  (List.range a.buckets.length).flatMap fun position => [a.ownPart position, a.otherPart position]

/-- Buckets whose shares are shares of one. -/
def Proper (a : Alias Rat) : Prop :=
  ∀ b ∈ a.buckets, 0 ≤ b.share ∧ b.share ≤ 1

private theorem mem_parts {a : Alias Rat} {p : Part} :
    p ∈ a.parts ↔
      ∃ position < a.buckets.length, p = a.ownPart position ∨ p = a.otherPart position := by
  simp only [parts, List.mem_flatMap, List.mem_range, List.mem_pair]

private theorem Proper.bucketAt {a : Alias Rat} (h : a.Proper) (position : Nat) :
    0 ≤ (a.bucketAt position).share ∧ (a.bucketAt position).share ≤ 1 := by
  unfold Alias.bucketAt
  by_cases hposition : position < a.buckets.length
  · rw [List.getD_eq_getElem _ _ hposition]
    exact h _ (List.getElem_mem hposition)
  · rw [List.getD_eq_default _ _ (Nat.not_lt.1 hposition)]
    norm_num

theorem Proper.bounds {a : Alias Rat} (h : a.Proper) {p : Part} (hp : p ∈ a.parts) :
    p.bucket < a.buckets.length ∧ 0 ≤ p.low ∧ p.high ≤ 1 := by
  obtain ⟨position, hposition, rfl | rfl⟩ := mem_parts.1 hp
  · exact ⟨hposition, le_refl 0, (h.bucketAt position).2⟩
  · exact ⟨hposition, (h.bucketAt position).1, le_refl 1⟩

theorem Proper.pairwise_parts {a : Alias Rat} (h : a.Proper) :
    a.parts.Pairwise fun p q => p.stop a.buckets.length ≤ q.start a.buckets.length := by
  have hsize : (0 : Rat) ≤ a.buckets.length := Nat.cast_nonneg _
  unfold parts
  rw [List.pairwise_flatMap]
  constructor
  · intro position _
    simp [ownPart, otherPart, Part.stop, Part.start]
  · apply List.pairwise_lt_range.imp_of_mem
    intro position position' hposition hposition' hlt p hp q hq
    have hpmem : p ∈ a.parts := List.mem_flatMap.2 ⟨position, hposition, hp⟩
    have hqmem : q ∈ a.parts := List.mem_flatMap.2 ⟨position', hposition', hq⟩
    have hpbucket : p.bucket = position := by
      rcases List.mem_pair.1 hp with rfl | rfl
      · rfl
      · rfl
    have hqbucket : q.bucket = position' := by
      rcases List.mem_pair.1 hq with rfl | rfl
      · rfl
      · rfl
    have hnext : (p.bucket : Rat) + 1 ≤ q.bucket := by
      rw [hpbucket, hqbucket]
      exact_mod_cast hlt
    obtain ⟨-, -, hhigh⟩ := h.bounds hpmem
    obtain ⟨-, hlow, -⟩ := h.bounds hqmem
    exact div_le_div_of_nonneg_right (by linarith) hsize

/-! ## Coins -/

private theorem exists_part {a : Alias Rat} {bucket : Nat} (hbucket : bucket < a.buckets.length)
    {coin : Rat} (hlow : 0 ≤ coin) (hhigh : coin < 1) :
    ∃ p ∈ a.parts, p.bucket = bucket ∧ p.low ≤ coin ∧ coin < p.high := by
  by_cases hshare : coin < (a.bucketAt bucket).share
  · exact ⟨a.ownPart bucket, mem_parts.2 ⟨bucket, hbucket, .inl rfl⟩, rfl, hlow, hshare⟩
  · exact ⟨a.otherPart bucket, mem_parts.2 ⟨bucket, hbucket, .inr rfl⟩, rfl, not_lt.1 hshare,
      hhigh⟩

private theorem toss_def (a : Alias Rat) (bucket : Nat) (coin : Rat) :
    a.toss bucket coin =
      if coin < (a.bucketAt bucket).share then
        ⟨bucket, Draw.clampResidual (coin / (a.bucketAt bucket).share)⟩
      else if (a.bucketAt bucket).share < 1 then
        ⟨(a.bucketAt bucket).other, Draw.clampResidual
          ((coin - (a.bucketAt bucket).share) / (1 - (a.bucketAt bucket).share))⟩
      else ⟨(a.bucketAt bucket).other, 0⟩ := rfl

theorem toss_eq {a : Alias Rat} {p : Part} (hp : p ∈ a.parts) {coin : Rat} (hlow : p.low ≤ coin)
    (hhigh : coin < p.high) : a.toss p.bucket coin = ⟨p.index, p.residual coin⟩ := by
  have hlength : 0 < p.length := sub_pos.2 (lt_of_le_of_lt hlow hhigh)
  have hpart : 0 ≤ (coin - p.low) / p.length := div_nonneg (sub_nonneg.2 hlow) (le_of_lt hlength)
  rw [Part.residual, ← Draw.clampResidual_of_nonneg hpart]
  obtain ⟨position, -, rfl | rfl⟩ := mem_parts.1 hp
  · have hshare : coin < (a.bucketAt position).share := hhigh
    rw [toss_def, ownPart, if_pos hshare, Part.length, sub_zero, sub_zero]
  · have hshare : ¬ coin < (a.bucketAt position).share := not_lt.2 hlow
    have hrest : (a.bucketAt position).share < 1 := sub_pos.1 hlength
    rw [toss_def, otherPart, if_neg hshare, if_pos hrest]
    rfl

theorem toss_index_iff {a : Alias Rat} {bucket index : Nat} (hbucket : bucket < a.buckets.length)
    {coin : Rat} (hlow : 0 ≤ coin) (hhigh : coin < 1) :
    (a.toss bucket coin).index = index ↔
      ∃ p ∈ a.parts, p.bucket = bucket ∧ p.index = index ∧ p.low ≤ coin ∧ coin < p.high := by
  constructor
  · intro hindex
    obtain ⟨p, hp, rfl, hplow, hphigh⟩ := exists_part hbucket hlow hhigh
    rw [toss_eq hp hplow hphigh] at hindex
    exact ⟨p, hp, rfl, hindex, hplow, hphigh⟩
  · intro hpart
    obtain ⟨p, hp, rfl, hindex, hplow, hphigh⟩ := hpart
    rw [toss_eq hp hplow hphigh]
    exact hindex

/-! ## Draws -/

private theorem floor_eq {x : Rat} {n : Nat} (hlow : (n : Rat) ≤ x) (hhigh : x < n + 1) :
    Scalar.floor x = n := by
  have hfloor : ⌊x⌋ = (n : Int) :=
    Int.floor_eq_iff.2 ⟨by exact_mod_cast hlow, by exact_mod_cast hhigh⟩
  have hscalar : Scalar.floor x = ⌊x⌋.toNat := rfl
  rw [hscalar, hfloor, Int.toNat_natCast]

theorem pick?_of_mem {a : Alias Rat} (h : a.Proper) {p : Part} (hp : p ∈ a.parts) {draw : Rat}
    (hlow : p.start a.buckets.length ≤ draw) (hhigh : draw < p.stop a.buckets.length) :
    a.pick? draw = some ⟨p.index, p.residual (draw * a.buckets.length - p.bucket)⟩ := by
  obtain ⟨hbucket, hplow, hphigh⟩ := h.bounds hp
  have hsize : (0 : Rat) < a.buckets.length := by exact_mod_cast Nat.zero_lt_of_lt hbucket
  have hnext : (p.bucket : Rat) + 1 ≤ a.buckets.length := by exact_mod_cast hbucket
  have hbucket_nonneg : (0 : Rat) ≤ p.bucket := Nat.cast_nonneg _
  rw [Part.start, div_le_iff₀ hsize] at hlow
  rw [Part.stop, lt_div_iff₀ hsize] at hhigh
  have hdraw_nonneg : 0 ≤ draw := by
    by_contra hneg
    have hscaled := mul_neg_of_neg_of_pos (not_le.1 hneg) hsize
    linarith
  have hdraw_le : draw ≤ 1 := by
    by_contra hbeyond
    have hscaled := mul_lt_mul_of_pos_right (not_le.1 hbeyond) hsize
    linarith
  have hanswers : a.answers draw = true := by
    have hne : a.buckets ≠ [] := List.ne_nil_of_length_pos (Nat.zero_lt_of_lt hbucket)
    simp [answers, Scalar.isNaN, hne]
  have hfloor : Scalar.floor (draw * a.buckets.length) = p.bucket :=
    floor_eq (by linarith) (by linarith)
  have hmin : min p.bucket (a.buckets.length - 1) = p.bucket := by omega
  rw [pick?, if_pos hanswers, Draw.clamp_of_mem hdraw_nonneg hdraw_le]
  simp only [Draw.ofNat_eq, hfloor, hmin]
  rw [toss_eq hp (by linarith) (by linarith)]

private theorem exists_part_of_draw {a : Alias Rat} (hne : a.buckets ≠ []) {draw : Rat}
    (hlow : 0 ≤ draw) (hhigh : draw < 1) :
    ∃ p ∈ a.parts, p.start a.buckets.length ≤ draw ∧ draw < p.stop a.buckets.length := by
  have hpos : 0 < a.buckets.length := List.length_pos_of_ne_nil hne
  have hsize : (0 : Rat) < a.buckets.length := by exact_mod_cast hpos
  have hscaled : 0 ≤ draw * a.buckets.length := mul_nonneg hlow (le_of_lt hsize)
  have hfloor := Nat.floor_le hscaled
  have hnext := Nat.lt_floor_add_one (draw * a.buckets.length)
  have hbucket : ⌊draw * a.buckets.length⌋₊ < a.buckets.length := by
    rw [Nat.floor_lt hscaled]
    exact mul_lt_of_lt_one_left hsize hhigh
  obtain ⟨p, hp, hpbucket, hplow, hphigh⟩ := exists_part hbucket (sub_nonneg.2 hfloor)
    (by linarith : draw * a.buckets.length - ⌊draw * a.buckets.length⌋₊ < 1)
  refine ⟨p, hp, ?_, ?_⟩
  · rw [Part.start, div_le_iff₀ hsize, hpbucket]
    linarith
  · rw [Part.stop, lt_div_iff₀ hsize, hpbucket]
    linarith

theorem select?_eq_some_iff {a : Alias Rat} (h : a.Proper) (hne : a.buckets ≠ []) {draw : Rat}
    (hlow : 0 ≤ draw) (hhigh : draw < 1) {index : Nat} :
    (Sampler.aliasBuckets a).select? draw = some index ↔
      ∃ p ∈ a.parts, p.index = index ∧
        p.start a.buckets.length ≤ draw ∧ draw < p.stop a.buckets.length := by
  have hselect : (Sampler.aliasBuckets a).select? draw = (a.pick? draw).map Pick.index := rfl
  constructor
  · intro hindex
    obtain ⟨p, hp, hplow, hphigh⟩ := exists_part_of_draw hne hlow hhigh
    rw [hselect, pick?_of_mem h hp hplow hphigh, Option.map_some, Option.some.injEq] at hindex
    exact ⟨p, hp, hindex, hplow, hphigh⟩
  · intro hpart
    obtain ⟨p, hp, hindex, hplow, hphigh⟩ := hpart
    rw [hselect, pick?_of_mem h hp hplow hphigh, Option.map_some, hindex]

/-! ## Lengths -/

private theorem sum_map_parts (a : Alias Rat) (f : Part → Rat) :
    (a.parts.map f).sum = ((List.range a.buckets.length).map fun position =>
      f (a.ownPart position) + f (a.otherPart position)).sum := by
  unfold parts
  induction List.range a.buckets.length with
  | nil => rfl
  | cons position positions ih =>
      rw [List.flatMap_cons, List.map_append, List.sum_append, ih, List.map_cons, List.sum_cons]
      simp

/-- The mass of an index within one bucket. -/
def massIn (a : Alias Rat) (index position : Nat) : Rat :=
  (if position = index then (a.bucketAt position).share else 0) +
    if (a.bucketAt position).other = index then 1 - (a.bucketAt position).share else 0

theorem sum_massIn {a : Alias Rat} {index : Nat} (hindex : index < a.buckets.length) :
    ((List.range a.buckets.length).map (a.massIn index)).sum = bucketMass a.buckets index := by
  have hbuckets : (List.range a.buckets.length).map a.bucketAt = a.buckets := by
    apply map_range_eq
    intro position hposition
    exact List.getD_eq_getElem _ _ hposition
  have hcount : (List.range a.buckets.length).count index = 1 :=
    List.count_eq_one_of_mem List.nodup_range (List.mem_range.2 hindex)
  unfold massIn bucketMass
  rw [List.sum_map_add, List.sum_map_ite_eq, hcount]
  congr 1
  · simp [bucketAt]
  · conv_rhs => rw [← hbuckets, List.map_map]
    rfl

theorem sum_length_bucket {a : Alias Rat} {bucket : Nat} (hbucket : bucket < a.buckets.length)
    (index : Nat) :
    (a.parts.map fun p => if p.bucket = bucket ∧ p.index = index then p.length else 0).sum =
      a.massIn index bucket := by
  have hcount : (List.range a.buckets.length).count bucket = 1 :=
    List.count_eq_one_of_mem List.nodup_range (List.mem_range.2 hbucket)
  have hparts : ∀ position,
      ((if (a.ownPart position).bucket = bucket ∧ (a.ownPart position).index = index then
          (a.ownPart position).length else 0) +
        if (a.otherPart position).bucket = bucket ∧ (a.otherPart position).index = index then
          (a.otherPart position).length else 0) =
      if position = bucket then a.massIn index position else 0 := by
    intro position
    by_cases hposition : position = bucket
    · simp [ownPart, otherPart, Part.length, massIn, hposition]
    · simp [ownPart, otherPart, hposition]
  rw [sum_map_parts]
  simp only [hparts]
  rw [List.sum_map_ite_eq, hcount]
  simp

theorem sum_length_index {a : Alias Rat} {index : Nat} (hindex : index < a.buckets.length) :
    (a.parts.map fun p => if p.index = index then p.length else 0).sum =
      bucketMass a.buckets index := by
  rw [sum_map_parts, ← sum_massIn hindex]
  congr 1
  apply List.map_congr_left
  intro position _
  have hown : (a.ownPart position).length = (a.bucketAt position).share := sub_zero _
  rw [hown]
  rfl

end Alias

end DropTable
