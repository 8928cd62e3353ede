import Mathlib.Data.List.Sort
import Std.Data.HashMap.Lemmas
import DropTable.Proofs.References.Representation
/-!
# References as a graph

The index of references can be kept as a graph with a node for each variable and for each program
and an edge from a variable to each program that refers to it.  A table by name finds the nodes of
the variables, and gains a node whenever a variable comes up for the first time.

The graph may be any with the operations of `LabelledDigraph` and the laws of
`LawfulLabelledDigraph`.  It answers as the index by positions does, because the two are built
alike: after each reference the targets of a variable's node are the programs at the variable's
positions (`Mirrors`).
-/

namespace DropTable

/-- Directed graphs with labelled nodes, to which nodes and edges are added one at a time. -/
class LabelledDigraph (G : Type) (N L : outParam Type) where
  empty : G
  addNode : G → L → G × N
  addEdge : G → N → N → G
  label? : G → N → Option L
  targets : G → N → List N

open LabelledDigraph

/-- A node that is added is new and has the given label, and an edge adds one target to its source.
The order of a node's targets is left open. -/
class LawfulLabelledDigraph (G : Type) {N L : outParam Type} [LabelledDigraph G N L] : Prop where
  targets_of_absent {g : G} {n : N} : label? g n = none → targets g n = []
  addNode_fresh (g : G) (l : L) : label? g (addNode g l).2 = none
  label?_addNode_self (g : G) (l : L) : label? (addNode g l).1 (addNode g l).2 = some l
  label?_addNode_of_ne {g : G} {l : L} {n : N} :
    n ≠ (addNode g l).2 → label? (addNode g l).1 n = label? g n
  targets_addNode (g : G) (l : L) (n : N) : (targets (addNode g l).1 n).Perm (targets g n)
  label?_addEdge {g : G} {a b : N} :
    label? g a ≠ none → label? g b ≠ none → ∀ n, label? (addEdge g a b) n = label? g n
  targets_addEdge_self {g : G} {a b : N} :
    label? g a ≠ none → label? g b ≠ none →
      (targets (addEdge g a b) a).Perm (b :: targets g a)
  targets_addEdge_of_ne {g : G} {a b n : N} :
    label? g a ≠ none → label? g b ≠ none → n ≠ a →
      (targets (addEdge g a b) n).Perm (targets g n)

namespace LabelledDigraph

variable {G N L : Type} [LabelledDigraph G N L]

/-- The targets of a node carry the given labels, in some order. -/
def Leads (g : G) (n : N) (labels : List L) : Prop :=
  ((targets g n).map (label? g)).Perm (labels.map some)

variable {g : G} {n a b : N} {l k : L} {labels : List L}

private theorem Leads.exists_label (h : Leads g a labels) {n : N} (hn : n ∈ targets g a) :
    ∃ k, label? g n = some k := by
  obtain ⟨k, -, hk⟩ := List.mem_map.1 (h.mem_iff.1 (List.mem_map_of_mem hn))
  exact ⟨k, hk.symm⟩

variable [LawfulLabelledDigraph G]

private theorem ne_addNode_of_label (h : label? g n = some k) (l : L) : n ≠ (addNode g l).2 := by
  rintro rfl
  rw [LawfulLabelledDigraph.addNode_fresh] at h
  cases h

private theorem label?_addNode (h : label? g n = some k) (l : L) :
    label? (addNode g l).1 n = some k := by
  rw [LawfulLabelledDigraph.label?_addNode_of_ne (ne_addNode_of_label h l), h]

private theorem label?_addEdge (ha : label? g a = some l) (hb : label? g b = some k) (n : N) :
    label? (addEdge g a b) n = label? g n :=
  LawfulLabelledDigraph.label?_addEdge (by simp [ha]) (by simp [hb]) n

/-- Targets are nodes of the graph, so a new node is none of them and their labels stay. -/
private theorem Leads.addNode (h : Leads g n labels) (l : L) : Leads (addNode g l).1 n labels := by
  have hkeeps : (targets g n).map (label? (LabelledDigraph.addNode g l).1) =
      (targets g n).map (label? g) := by
    refine List.map_congr_left fun m hm => ?_
    obtain ⟨k, hk⟩ := h.exists_label hm
    rw [label?_addNode hk l, hk]
  exact ((LawfulLabelledDigraph.targets_addNode g l n).map _).trans (hkeeps ▸ h)

private theorem leads_addNode_self (g : G) (l : L) : Leads (addNode g l).1 (addNode g l).2 [] := by
  have habsent := LawfulLabelledDigraph.addNode_fresh g l
  have hnone := LawfulLabelledDigraph.targets_addNode g l (addNode g l).2
  rw [LawfulLabelledDigraph.targets_of_absent habsent, List.perm_nil] at hnone
  rw [Leads, hnone]
  exact .refl _

private theorem Leads.addEdge_self (h : Leads g a labels) (ha : label? g a = some l)
    (hb : label? g b = some k) : Leads (addEdge g a b) a (labels ++ [k]) := by
  have htargets : (targets (addEdge g a b) a).Perm (b :: targets g a) :=
    LawfulLabelledDigraph.targets_addEdge_self (by simp [ha]) (by simp [hb])
  rw [Leads, funext (label?_addEdge ha hb)]
  calc
    List.Perm ((targets (addEdge g a b) a).map (label? g))
        (label? g b :: (targets g a).map (label? g)) := htargets.map _
    List.Perm _ (some k :: labels.map some) := hb ▸ h.cons _
    List.Perm _ ((labels ++ [k]).map some) := by
      rw [List.map_append]
      exact (List.perm_append_singleton _ _).symm

private theorem Leads.addEdge_of_ne (h : Leads g n labels) (ha : label? g a = some l)
    (hb : label? g b = some k) (hn : n ≠ a) : Leads (addEdge g a b) n labels := by
  have htargets : (targets (addEdge g a b) n).Perm (targets g n) :=
    LawfulLabelledDigraph.targets_addEdge_of_ne (by simp [ha]) (by simp [hb]) hn
  rw [Leads, funext (label?_addEdge ha hb)]
  exact (htargets.map _).trans h

end LabelledDigraph

/-! ## Graphs as lists of nodes -/

/-- A graph as the list of its nodes, each with its label and its targets, the latest first. -/
structure AdjacencyList (L : Type) where
  nodes : List (L × List Nat)

namespace AdjacencyList

variable {L : Type}

instance : LabelledDigraph (AdjacencyList L) Nat L where
  empty := ⟨[]⟩
  addNode g l := (⟨g.nodes ++ [(l, [])]⟩, g.nodes.length)
  addEdge g a b := ⟨g.nodes.modify a fun (l, targets) => (l, b :: targets)⟩
  label? g n := g.nodes[n]?.map Prod.fst
  targets g n := (g.nodes[n]?.map Prod.snd).getD []

private theorem label?_eq (g : AdjacencyList L) (n : Nat) : label? g n = g.nodes[n]?.map Prod.fst :=
  rfl

private theorem targets_eq (g : AdjacencyList L) (n : Nat) :
    targets g n = (g.nodes[n]?.map Prod.snd).getD [] :=
  rfl

private theorem getElem?_addNode (g : AdjacencyList L) (l : L) (n : Nat) :
    (addNode g l).1.nodes[n]? = if n = g.nodes.length then some (l, []) else g.nodes[n]? := by
  change (g.nodes ++ [(l, [])])[n]? = _
  split
  next h => simp [h]
  next h =>
    rcases Nat.lt_or_gt_of_ne h with hlt | hgt
    · exact List.getElem?_append_left hlt
    · rw [List.getElem?_eq_none (by simp; omega), List.getElem?_eq_none hgt.le]

private theorem getElem?_addEdge (g : AdjacencyList L) (a b n : Nat) :
    (addEdge g a b).nodes[n]? =
      g.nodes[n]?.map fun (l, targets) => (l, if a = n then b :: targets else targets) := by
  change (g.nodes.modify a _)[n]? = _
  rw [List.getElem?_modify]
  split <;> rfl

instance : LawfulLabelledDigraph (AdjacencyList L) where
  targets_of_absent {g n} h := by
    rw [label?_eq, Option.map_eq_none_iff] at h
    rw [targets_eq, h]
    rfl
  addNode_fresh g l := by simp [label?, addNode]
  label?_addNode_self g l := by simp [label?, addNode]
  label?_addNode_of_ne {g l n} h := by
    have hne : n ≠ g.nodes.length := h
    rw [label?_eq, getElem?_addNode, if_neg hne, label?_eq]
  targets_addNode g l n := by
    rw [targets_eq, getElem?_addNode, targets_eq]
    split
    next h => simp [h]
    next => exact .refl _
  label?_addEdge {g a b} _ _ n := by
    rw [label?_eq, getElem?_addEdge, Option.map_map, label?_eq]
    rfl
  targets_addEdge_self {g a b} ha _ := by
    rw [label?_eq, ne_eq, Option.map_eq_none_iff] at ha
    obtain ⟨⟨l, targets⟩, hnode⟩ := Option.ne_none_iff_exists'.1 ha
    simp [targets_eq, getElem?_addEdge, hnode]
  targets_addEdge_of_ne {g a b n} _ _ hn := by
    rw [targets_eq, getElem?_addEdge, Option.map_map, targets_eq]
    simp only [Function.comp_def, if_neg hn.symm]
    exact .refl _

end AdjacencyList

/-! ## Graphs of references -/

/-- What a node of the graph of references stands for. -/
inductive Vertex where
  | variable (name : String)
  | program (position : Nat)

def Vertex.position? : Vertex → Option Nat
  | .variable _ => none
  | .program position => some position

/-- A graph of references with the nodes of its variables by name. -/
structure ReferenceGraph (G N : Type) where
  graph : G
  nodes : Std.HashMap String N

namespace ReferenceGraph

variable {G N α : Type} [LabelledDigraph G N Vertex]

/-- The node of a variable, which is added unless it is there. -/
def addVariable (r : ReferenceGraph G N) (name : String) : ReferenceGraph G N × N :=
  match r.nodes[name]? with
  | some node => (r, node)
  | none =>
    let (graph, node) := addNode r.graph (.variable name)
    (⟨graph, r.nodes.insert name node⟩, node)

/-- Records that the program at a node refers to a variable. -/
def addReference (program : N) (r : ReferenceGraph G N) (name : String) : ReferenceGraph G N :=
  let (r, node) := r.addVariable name
  ⟨addEdge r.graph node program, r.nodes⟩

def addProgram (r : ReferenceGraph G N) (p : Program α) (position : Nat) : ReferenceGraph G N :=
  let (graph, node) := addNode r.graph (.program position)
  p.variableNames.toList.foldl (addReference node) ⟨graph, r.nodes⟩

def ofPrograms (programs : List (Program α)) : ReferenceGraph G N :=
  programs.zipIdx.foldl (fun r (p, position) => r.addProgram p position) ⟨empty, ∅⟩

def position? (r : ReferenceGraph G N) (node : N) : Option Nat :=
  (label? r.graph node).bind Vertex.position?

def dependents (r : ReferenceGraph G N) (name : String) : List Nat :=
  match r.nodes[name]? with
  | some node => ((targets r.graph node).filterMap r.position?).mergeSort
  | none => []

def variableNames (r : ReferenceGraph G N) : List String :=
  r.nodes.keys.mergeSort fun x y => Text.bytes x ≤ Text.bytes y

def answers (r : ReferenceGraph G N) : References.Answers where
  dependents := r.dependents
  contains := r.nodes.contains
  variableNames := r.variableNames
  size := r.nodes.size
  isEmpty := r.nodes.isEmpty

/-! ## The node of a variable -/

private theorem addVariable_cases (r : ReferenceGraph G N) (name : String) :
    (∃ node, r.nodes[name]? = some node ∧ r.addVariable name = (r, node)) ∨
      r.nodes[name]? = none ∧ r.addVariable name =
        (⟨(addNode r.graph (.variable name)).1,
          r.nodes.insert name (addNode r.graph (.variable name)).2⟩,
          (addNode r.graph (.variable name)).2) := by
  unfold addVariable
  split
  next node hname => exact .inl ⟨node, hname, rfl⟩
  next hname => exact .inr ⟨hname, rfl⟩

private theorem getElem?_addVariable (r : ReferenceGraph G N) (name : String) :
    (r.addVariable name).1.nodes[name]? = some (r.addVariable name).2 := by
  obtain ⟨node, hnode, heq⟩ | ⟨-, heq⟩ := r.addVariable_cases name <;> rw [heq]
  · exact hnode
  · exact Std.HashMap.getElem?_insert_self

private theorem mem_addVariable {r : ReferenceGraph G N} {name other : String} :
    other ∈ (r.addVariable name).1.nodes ↔ name = other ∨ other ∈ r.nodes := by
  obtain ⟨node, hnode, heq⟩ | ⟨-, heq⟩ := r.addVariable_cases name <;> rw [heq]
  · have hmem : name ∈ r.nodes := Std.HashMap.mem_iff_isSome_getElem?.2 (by simp [hnode])
    exact ⟨.inr, fun h => h.elim (fun heq => heq ▸ hmem) id⟩
  · simp

private theorem getElem?_insert_eq_some {nodes : Std.HashMap String N} {name other : String}
    {node m : N} : (nodes.insert name node)[other]? = some m ↔
      name = other ∧ node = m ∨ name ≠ other ∧ nodes[other]? = some m := by
  rw [Std.HashMap.getElem?_insert]
  by_cases h : name = other <;> simp [h]

/-! ## Graphs that stand for lists of positions -/

/-- The nodes of the variables carry their names and lead to the programs at the given positions. -/
structure Wired (r : ReferenceGraph G N) (positions : String → List Nat) : Prop where
  label {name : String} {node : N} :
    r.nodes[name]? = some node → label? r.graph node = some (.variable name)
  leads {name : String} {node : N} :
    r.nodes[name]? = some node → Leads r.graph node ((positions name).map .program)
  absent {name : String} : r.nodes[name]? = none → positions name = []

/-- The graph knows the variables that the index by positions knows and leads to the programs at
their positions. -/
structure Mirrors (r : ReferenceGraph G N) (s : References) : Prop where
  wired : r.Wired s.dependents
  mem_nodes {name : String} : name ∈ r.nodes ↔ s.contains name = true

private theorem mirrors_empty : Mirrors (⟨empty, ∅⟩ : ReferenceGraph G N) ⟨∅⟩ where
  wired := by constructor <;> simp [References.dependents]
  mem_nodes := by simp [References.contains]

/-! ## What one reference changes -/

section Lawful

variable [LawfulLabelledDigraph G] {r : ReferenceGraph G N} {positions : String → List Nat}

private theorem Wired.addNode (h : r.Wired positions) (v : Vertex) :
    Wired ⟨(addNode r.graph v).1, r.nodes⟩ positions where
  label hnode := label?_addNode (h.label hnode) v
  leads hnode := (h.leads hnode).addNode v
  absent := h.absent

theorem Wired.insert (h : r.Wired positions) {name : String} (hname : r.nodes[name]? = none) :
    Wired ⟨(LabelledDigraph.addNode r.graph (.variable name)).1,
      r.nodes.insert name (LabelledDigraph.addNode r.graph (.variable name)).2⟩ positions := by
  have hkept := h.addNode (.variable name)
  constructor
  case label =>
    intro other node hnode
    obtain ⟨rfl, rfl⟩ | ⟨-, hnode⟩ := getElem?_insert_eq_some.1 hnode
    · exact LawfulLabelledDigraph.label?_addNode_self _ _
    · exact hkept.label hnode
  case leads =>
    intro other node hnode
    obtain ⟨rfl, rfl⟩ | ⟨-, hnode⟩ := getElem?_insert_eq_some.1 hnode
    · rw [h.absent hname]
      exact leads_addNode_self _ _
    · exact hkept.leads hnode
  case absent =>
    intro other hnone
    rw [Std.HashMap.getElem?_insert] at hnone
    split at hnone
    · cases hnone
    · exact h.absent hnone

private theorem Wired.addVariable (h : r.Wired positions) (name : String) :
    (r.addVariable name).1.Wired positions := by
  obtain ⟨node, -, heq⟩ | ⟨hname, heq⟩ := r.addVariable_cases name <;> rw [heq]
  · exact h
  · exact h.insert hname

private theorem label?_addVariable {n : N} {v : Vertex} (h : label? r.graph n = some v)
    (name : String) :
    label? (r.addVariable name).1.graph n = some v := by
  obtain ⟨node, -, heq⟩ | ⟨-, heq⟩ := r.addVariable_cases name <;> rw [heq]
  · exact h
  · exact label?_addNode h _

/-- Different variables have different nodes, since the nodes carry the names. -/
private theorem Wired.addEdge (h : r.Wired positions) {name : String} {node program : N}
    {position : Nat} (hnode : r.nodes[name]? = some node)
    (hprogram : label? r.graph program = some (.program position)) :
    Wired ⟨addEdge r.graph node program, r.nodes⟩
      (fun other => positions other ++ if name = other then [position] else []) where
  label hother := by
    rw [label?_addEdge (h.label hnode) hprogram, h.label hother]
  leads {other m} hother := by
    by_cases heq : name = other
    · obtain rfl : node = m := Option.some_inj.1 (by rw [← hnode, heq, hother])
      simpa [heq] using (h.leads hother).addEdge_self (h.label hnode) hprogram
    · have hne : m ≠ node := by
        rintro rfl
        have hlabel := (h.label hnode).symm.trans (h.label hother)
        exact heq (by simpa using hlabel)
      simpa [heq] using (h.leads hother).addEdge_of_ne (h.label hnode) hprogram hne
  absent {other} hother := by
    have hne : name ≠ other := by
      rintro rfl
      rw [hnode] at hother
      cases hother
    simp [h.absent hother, hne]

private theorem label?_addReference (h : r.Wired positions) {program : N} {position : Nat}
    (hprogram : label? r.graph program = some (.program position)) (name : String) :
    label? (r.addReference program name).graph program = some (.program position) := by
  have hnode := (h.addVariable name).label (r.getElem?_addVariable name)
  have hkept := label?_addVariable hprogram name
  exact (label?_addEdge hnode hkept program).trans hkept

variable {s : References}

theorem Mirrors.addReference (h : r.Mirrors s) {program : N} {position : Nat}
    (hprogram : label? r.graph program = some (.program position)) (name : String) :
    (r.addReference program name).Mirrors (s.addReference position name) where
  wired := by
    rw [funext (References.dependents_addReference position s name)]
    exact (h.wired.addVariable name).addEdge (r.getElem?_addVariable name)
      (label?_addVariable hprogram name)
  mem_nodes {other} := by
    rw [References.contains_addReference, ← h.mem_nodes]
    exact mem_addVariable

/-! ## Building both kinds of index side by side -/

private theorem Mirrors.foldl_addReference (names : List String) {r : ReferenceGraph G N}
    {s : References} (h : r.Mirrors s) {program : N} {position : Nat}
    (hprogram : label? r.graph program = some (.program position)) :
    (names.foldl (ReferenceGraph.addReference program) r).Mirrors
      (names.foldl (References.addReference position) s) := by
  induction names generalizing r s with
  | nil => exact h
  | cons name names ih =>
    exact ih (h.addReference hprogram name) (label?_addReference h.wired hprogram name)

theorem Mirrors.addProgram (h : r.Mirrors s) (p : Program α) (position : Nat) :
    (r.addProgram p position).Mirrors (s.addProgram p position) :=
  Mirrors.foldl_addReference _ ⟨h.wired.addNode (.program position), h.mem_nodes⟩
    (LawfulLabelledDigraph.label?_addNode_self _ _)

private theorem Mirrors.foldl_addProgram (programs : List (Program α × Nat))
    {r : ReferenceGraph G N} {s : References} (h : r.Mirrors s) :
    (programs.foldl (fun r (p, position) => r.addProgram p position) r).Mirrors
      (programs.foldl (fun s (p, position) => s.addProgram p position) s) := by
  induction programs generalizing r s with
  | nil => exact h
  | cons p programs ih => exact ih (h.addProgram p.1 p.2)

theorem mirrors_ofPrograms (programs : List (Program α)) :
    (ofPrograms programs : ReferenceGraph G N).Mirrors (References.ofPrograms programs) :=
  mirrors_empty.foldl_addProgram programs.zipIdx

end Lawful

/-! ## Equal answers -/

private theorem mergeSort_eq_of_perm {β : Type} [LinearOrder β] {l m : List β} (hperm : l.Perm m)
    (hm : m.Pairwise (· < ·)) : l.mergeSort = m := by
  have hsorted : l.mergeSort.Pairwise (· ≤ ·) := List.pairwise_mergeSort' (· ≤ ·) l
  exact ((l.mergeSort_perm _).trans hperm).eq_of_pairwise' hsorted (hm.imp le_of_lt)

theorem Wired.dependents_eq {r : ReferenceGraph G N} {positions : String → List Nat}
    (h : r.Wired positions) {name : String} (hascending : (positions name).Pairwise (· < ·)) :
    r.dependents name = positions name := by
  unfold dependents
  split
  next node hnode =>
    refine mergeSort_eq_of_perm ?_ hascending
    have hmap := (h.leads hnode).filterMap (·.bind Vertex.position?)
    simp only [List.filterMap_map, Function.comp_def, Option.bind_some, Vertex.position?,
      List.filterMap_some, List.map_map] at hmap
    exact hmap
  next hnode => exact (h.absent hnode).symm

/-- Sorting the names makes up for the order in which the table lists them. -/
theorem Mirrors.variableNames_eq {r : ReferenceGraph G N} {s : References} (h : r.Mirrors s) :
    r.variableNames = s.variableNames := by
  have hascending : s.variableNames.Pairwise (· < ·) :=
    s.variableNames_ascending.imp Text.bytes_lt_iff.1
  have hperm : r.nodes.keys.Perm s.variableNames := by
    refine (List.perm_ext_iff_of_nodup Std.HashMap.nodup_keys hascending.nodup).2 fun name => ?_
    rw [Std.HashMap.mem_keys, h.mem_nodes, References.mem_variableNames]
  simp only [variableNames, Text.bytes_le_iff]
  exact mergeSort_eq_of_perm hperm hascending

theorem Mirrors.answers_eq {r : ReferenceGraph G N} {s : References} (h : r.Mirrors s)
    (hascending : ∀ name, (s.dependents name).Pairwise (· < ·)) : r.answers = s.answers := by
  have hsize : r.nodes.size = s.size := by
    rw [← Std.HashMap.length_keys, References.size, ← Std.ExtTreeMap.length_keys,
      ← References.variableNames, ← h.variableNames_eq, variableNames, List.length_mergeSort]
  have hempty : r.nodes.isEmpty = s.isEmpty := by
    rw [Bool.eq_iff_iff, Std.HashMap.isEmpty_iff_forall_not_mem, References.isEmpty_iff]
    simp only [h.mem_nodes]
  have hcontains : r.nodes.contains = s.contains := by
    funext name
    rw [Bool.eq_iff_iff, Std.HashMap.contains_iff_mem, h.mem_nodes]
  simp only [answers, References.answers, hcontains, hsize, hempty, h.variableNames_eq,
    funext fun name => h.wired.dependents_eq (hascending name)]

theorem represents_programs [LawfulLabelledDigraph G] (programs : List (Program α)) :
    References.Represents programs (ofPrograms programs : ReferenceGraph G N).answers ∧
      (References.ofPrograms programs).answers =
        (ofPrograms programs : ReferenceGraph G N).answers := by
  have heq : (ofPrograms programs : ReferenceGraph G N).answers =
      (References.ofPrograms programs).answers :=
    (mirrors_ofPrograms programs).answers_eq (References.dependents_ascending programs)
  exact ⟨heq ▸ References.represents_ofPrograms programs, heq.symm⟩

/-- Two variables that share a program, a program without variables, and a variable with a minus of
its own. -/
theorem represents_programs_shared :
    let programs : List (Program Float) :=
      [⟨[.identifier "a" false, .identifier "b" false, .operator .add]⟩, ⟨[.number 3]⟩,
        ⟨[.identifier "b" false, .identifier "b" false, .operator .multiply]⟩,
        ⟨[.identifier "a" true]⟩]
    let r : ReferenceGraph (AdjacencyList Vertex) Nat := ofPrograms programs
    References.Represents programs r.answers ∧
      (References.ofPrograms programs).answers = r.answers ∧ r.dependents "b" = [0, 2] := by
  intro programs r
  obtain ⟨hrepresents, heq⟩ := represents_programs (G := AdjacencyList Vertex) programs
  have hb : (References.ofPrograms programs).answers.dependents "b" = [0, 2] := by decide +kernel
  exact ⟨hrepresents, heq, (congrArg (·.dependents "b") heq).symm.trans hb⟩

end ReferenceGraph

end DropTable
