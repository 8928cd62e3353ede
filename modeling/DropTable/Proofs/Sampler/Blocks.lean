import Mathlib.Data.List.Nodup
import DropTable.Sampler.Fenwick
/-!
# Blocks of positions

Node `n` of a binary indexed tree stands for the block of the last `lowBit n` positions up to `n`.
Blocks are nested or disjoint, and the least block around that of a node belongs to the node that a
climb visits next.  So a climb meets exactly the nodes whose blocks contain its start.  The blocks
of the nodes that a descent visits lie end to end, and a climb from one of their positions crosses
the descent once.
-/

namespace DropTable.Fenwick

theorem lowBit_double (n : Nat) : lowBit (2 * n) = 2 * lowBit n := by
  rcases Nat.eq_zero_or_pos n with rfl | hn
  · simp [lowBit]
  · have hhalf : 2 * n / 2 = n := by omega
    rw [lowBit, if_neg (by omega), if_neg (by omega), hhalf]

theorem lowBit_odd {n : Nat} (hodd : n % 2 = 1) : lowBit n = 1 := by
  rw [lowBit, if_neg (by omega), if_pos hodd]

/-- Whether a position is in the block of a node. -/
def InBlock (node position : Nat) : Prop :=
  node - lowBit node < position ∧ position ≤ node

private theorem inBlock_double {node position : Nat} :
    InBlock (2 * node) (2 * position) ↔ InBlock node position := by
  have hle := lowBit_le node
  unfold InBlock
  rw [lowBit_double]
  omega

private theorem inBlock_double_odd {node position : Nat} :
    InBlock (2 * node) (2 * position + 1) ↔ InBlock node (position + 1) := by
  have hle := lowBit_le node
  unfold InBlock
  rw [lowBit_double]
  omega

private theorem inBlock_odd {node position : Nat} (hodd : node % 2 = 1) :
    InBlock node position ↔ position = node := by
  unfold InBlock
  rw [lowBit_odd hodd]
  omega

private theorem add_lowBit_even (position : Nat) : (position + lowBit position) % 2 = 0 := by
  rcases Nat.mod_two_eq_zero_or_one position with heven | hodd
  · have hdouble := lowBit_double (position / 2)
    rw [show 2 * (position / 2) = position by omega] at hdouble
    omega
  · rw [lowBit_odd hodd]
    omega

/-- The blocks around a position other than its own are those around the end of the next block. -/
private theorem inBlock_iff {node position : Nat} (hposition : 0 < position) :
    InBlock node position ↔ position = node ∨ InBlock node (position + lowBit position) := by
  -- Halving takes all but the odd nodes, whose blocks are single positions, to smaller nodes.
  induction node using Nat.strongRecOn generalizing position with
  | ind node ih =>
      rcases Nat.mod_two_eq_zero_or_one node with heven | hodd
      · obtain ⟨half, rfl⟩ : ∃ half, node = 2 * half := ⟨node / 2, by omega⟩
        rcases Nat.eq_zero_or_pos half with rfl | hhalf
        · unfold InBlock
          omega
        · rcases Nat.mod_two_eq_zero_or_one position with heven' | hodd'
          · obtain ⟨k, rfl⟩ : ∃ k, position = 2 * k := ⟨position / 2, by omega⟩
            have hstep := ih half (by omega) (show 0 < k by omega)
            have hhalves : 2 * k = 2 * half ↔ k = half := by omega
            rw [lowBit_double, ← Nat.mul_add, inBlock_double, inBlock_double, hstep, hhalves]
          · obtain ⟨k, rfl⟩ : ∃ k, position = 2 * k + 1 := ⟨position / 2, by omega⟩
            have hnext : 2 * k + 1 + lowBit (2 * k + 1) = 2 * (k + 1) := by
              rw [lowBit_odd hodd']
              omega
            have hne : 2 * k + 1 ≠ 2 * half := by omega
            rw [hnext, inBlock_double_odd, inBlock_double, or_iff_right hne]
      · have hnext := add_lowBit_even position
        rw [inBlock_odd hodd, inBlock_odd hodd]
        omega

/-! ## Climbs and descents -/

theorem mem_climb {size start node : Nat} (hstart : 0 < start) :
    node ∈ climb size start ↔ node ≤ size ∧ InBlock node start := by
  fun_induction climb size start with
  | case1 start h ih =>
      have hnext := ih (by omega)
      rw [List.mem_cons, hnext, inBlock_iff hstart]
      constructor
      · intro hmem
        rcases hmem with hself | hlater
        · rw [hself]
          exact ⟨h.2, .inl rfl⟩
        · exact ⟨hlater.1, .inr hlater.2⟩
      · intro hmem
        rcases hmem.2 with hself | hblock
        · exact .inl hself.symm
        · exact .inr ⟨hmem.1, hblock⟩
  | case2 start h =>
      unfold InBlock
      constructor
      · simp
      · intro hblock
        omega

theorem pairwise_climb (size start : Nat) : (climb size start).Pairwise (· < ·) := by
  fun_induction climb size start with
  | case1 start h ih =>
      have hlow := lowBit_pos h.1
      refine List.pairwise_cons.2 ⟨?_, ih⟩
      intro node hnode
      obtain ⟨-, -, hle⟩ := (mem_climb (by omega)).1 hnode
      omega
  | case2 => exact .nil

theorem nodup_climb (size start : Nat) : (climb size start).Nodup :=
  (pairwise_climb size start).imp Nat.ne_of_lt

private theorem le_of_mem_descend {start node : Nat} (h : node ∈ descend start) : node ≤ start := by
  fun_induction descend start with
  | case1 start hpos ih =>
      rcases List.mem_cons.1 h with rfl | hlater
      · exact Nat.le_refl node
      · have hle := ih hlater
        omega
  | case2 => contradiction

theorem pairwise_descend (start : Nat) : (descend start).Pairwise (· > ·) := by
  fun_induction descend start with
  | case1 start hpos ih =>
      have hlow := lowBit_pos hpos
      refine List.pairwise_cons.2 ⟨?_, ih⟩
      intro node hnode
      have hle := le_of_mem_descend hnode
      omega
  | case2 => exact .nil

theorem nodup_descend (start : Nat) : (descend start).Nodup :=
  (pairwise_descend start).imp Nat.ne_of_gt

private theorem existsUnique_inBlock_descend {start position : Nat} (hpos : 0 < position)
    (hle : position ≤ start) : ∃! node, node ∈ descend start ∧ InBlock node position := by
  fun_induction descend start with
  | case1 start hstart ih =>
      by_cases hblock : start - lowBit start < position
      · refine ⟨start, ⟨List.mem_cons_self, hblock, hle⟩, ?_⟩
        rintro node ⟨hmem, -, hnode⟩
        rcases List.mem_cons.1 hmem with hself | hlater
        · exact hself
        · have hbefore := le_of_mem_descend hlater
          omega
      · obtain ⟨node, ⟨hmem, hnode⟩, hunique⟩ := ih (by omega)
        refine ⟨node, ⟨List.mem_cons_of_mem _ hmem, hnode⟩, ?_⟩
        rintro other ⟨hother, hinside⟩
        rcases List.mem_cons.1 hother with rfl | hlater
        · exact absurd hinside.1 hblock
        · exact hunique other ⟨hlater, hinside⟩
  | case2 => omega

theorem existsUnique_mem_climb_descend {size position start : Nat} (hpos : 0 < position)
    (hle : position ≤ start) (hstart : start ≤ size) :
    ∃! node, node ∈ climb size position ∧ node ∈ descend start := by
  obtain ⟨node, ⟨hmem, hnode⟩, hunique⟩ := existsUnique_inBlock_descend hpos hle
  refine ⟨node, ⟨(mem_climb hpos).2 ⟨?_, hnode⟩, hmem⟩, ?_⟩
  · exact Nat.le_trans (le_of_mem_descend hmem) hstart
  · rintro other ⟨hclimb, hdescend⟩
    exact hunique other ⟨hdescend, ((mem_climb hpos).1 hclimb).2⟩

theorem disjoint_climb_descend {size position start : Nat} (hlt : start < position) :
    (climb size position).Disjoint (descend start) := by
  intro node hclimb hdescend
  obtain ⟨-, -, hafter⟩ := (mem_climb (Nat.zero_lt_of_lt hlt)).1 hclimb
  have hbefore := le_of_mem_descend hdescend
  omega

end DropTable.Fenwick
