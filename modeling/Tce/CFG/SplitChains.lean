import Tce.CFG.BlockPieces

/-!
# The chains of blocks that splitting makes

Each block that is split becomes a chain of blocks, joined by call edges.
-/

namespace Tce.CFG.ControlFlowGraph

variable {A : Type}

/-- The blocks at the ends of the edges are those of the graph. -/
structure WellFormed (g : ControlFlowGraph A) : Prop where
  nodup : g.nodes.Nodup
  tail : ∀ e ∈ g.edges, e.tail ∈ g.nodes
  head : ∀ e ∈ g.edges, e.head ∈ g.nodes

/-- New blocks are at addresses of their own. -/
structure Allocates (g : ControlFlowGraph A) (allocate : A → A) : Prop where
  injective : Function.Injective allocate
  fresh : ∀ a, allocate a ∉ g.nodes

section Chains
variable (allocate : A → A)

/-- A block and the `k` new ones made from it. -/
def chain (b : A) (k : Nat) : List A := (List.range (k + 1)).map fun i => allocate^[i] b

def callEdges (b : A) (k : Nat) : List (ControlFlowEdge A) :=
  (List.range k).map fun i => callEdge (allocate^[i] b) (allocate^[i + 1] b)

/-- The edges of a block go out from the last one of its chain. -/
def fromLast (k : A → Nat) (e : ControlFlowEdge A) : ControlFlowEdge A :=
  { e with tail := allocate^[k e.tail] e.tail }

/-- Each block `b` of the graph became a chain of it and `k b` new ones. -/
structure SplitInto (g g' : ControlFlowGraph A) (k : A → Nat) : Prop where
  nodes : g'.nodes.Perm (g.nodes.flatMap fun b => chain allocate b (k b))
  instructions : ∀ b ∈ g.nodes, (g.basicBlock b).instructions =
    (chain allocate b (k b)).flatMap fun n => (g'.basicBlock n).instructions
  edges : g'.edges.Perm (g.edges.map (fromLast allocate k) ++ g.nodes.flatMap fun b => callEdges allocate b (k b))

end Chains

/-- A function that gives one element more at one place. -/
theorem flatMap_update_perm {β : Type} {l : List A} {b : A} {f f' : A → List β} {y : β} (hl : l.Nodup) (hb : b ∈ l)
    (hf : ∀ a, a ≠ b → f' a = f a) (hfb : f' b = f b ++ [y]) : (l.flatMap f').Perm (l.flatMap f ++ [y]) := by
  obtain ⟨pre, post, rfl⟩ := List.append_of_mem hb
  have hnot := List.nodup_middle.1 hl
  have hpre : pre.flatMap f' = pre.flatMap f := List.flatMap_congr fun a ha => hf a fun heq => by
    subst heq
    exact (List.nodup_cons.1 hnot).1 (List.mem_append_left _ ha)
  have hpost : post.flatMap f' = post.flatMap f := List.flatMap_congr fun a ha => hf a fun heq => by
    subst heq
    exact (List.nodup_cons.1 hnot).1 (List.mem_append_right _ ha)
  simp only [List.flatMap_append, List.flatMap_cons, hpre, hpost, hfb, List.append_assoc]
  exact (List.perm_append_comm.append_left _).append_left _

theorem moveOutEdges_perm [LinearOrder A] (edges : List (ControlFlowEdge A)) (x y : A) :
    (moveOutEdges edges x y).Perm (edges.map fun e => if e.tail = x then { e with tail := y } else e) := by
  induction edges with
  | nil => exact .refl _
  | cons e edges ih =>
    by_cases he : e.tail = x
    · simp only [moveOutEdges, ne_eq, he, not_true_eq_false, decide_false, Bool.false_eq_true, not_false_eq_true,
        List.filter_cons_of_neg, decide_true, List.filter_cons_of_pos, List.map_cons, if_true] at ih ⊢
      exact List.perm_middle.trans (ih.cons _)
    · simp only [moveOutEdges, ne_eq, he, not_false_eq_true, decide_true, List.filter_cons_of_pos, decide_false,
        Bool.false_eq_true, List.filter_cons_of_neg, List.map_cons, if_false, List.cons_append] at ih ⊢
      exact ih.cons _

section Unique
variable {g : ControlFlowGraph A} {allocate : A → A} {b b' : A} {i j : Nat} {k : A → Nat}

/-- Each new block is made from one block, at one place of its chain. -/
theorem Allocates.unique (h : g.Allocates allocate) (hb : b ∈ g.nodes) (hb' : b' ∈ g.nodes)
    (heq : allocate^[i] b = allocate^[j] b') : b = b' ∧ i = j := by
  induction i generalizing j with
  | zero =>
    cases j with
    | zero => exact ⟨heq, rfl⟩
    | succ j =>
      rw [Function.iterate_succ_apply'] at heq
      have heq : b = allocate (allocate^[j] b') := heq
      exact absurd (heq ▸ hb) (h.fresh _)
  | succ i ih =>
    cases j with
    | zero =>
      rw [Function.iterate_succ_apply'] at heq
      have heq : b' = allocate (allocate^[i] b) := heq.symm
      exact absurd (heq ▸ hb') (h.fresh _)
    | succ j =>
      rw [Function.iterate_succ_apply', Function.iterate_succ_apply'] at heq
      obtain ⟨rfl, rfl⟩ := ih (h.injective heq)
      exact ⟨rfl, rfl⟩

theorem mem_chain {n : A} {m : Nat} : n ∈ chain allocate b m ↔ ∃ i ≤ m, allocate^[i] b = n := by
  simp only [chain, List.mem_map, List.mem_range, Nat.lt_succ_iff]

theorem chain_succ (b : A) (m : Nat) : chain allocate b (m + 1) = chain allocate b m ++ [allocate^[m + 1] b] := by
  rw [chain, List.range_succ, List.map_append]
  rfl

theorem callEdges_succ (b : A) (m : Nat) :
    callEdges allocate b (m + 1) =
      callEdges allocate b m ++ [callEdge (allocate^[m] b) (allocate^[m + 1] b)] := by
  rw [callEdges, List.range_succ, List.map_append]
  rfl

end Unique

/-! ## One split -/

section Split
variable [LinearOrder A]

/-- The graph in the course of splitting: each block `b` became a chain of it and `k b` new ones, of which
only the last may have to be split. -/
structure Reached (split : List Instruction → Nat → Nat → Option Nat) (allocate : A → A) (g g' : ControlFlowGraph A)
    (k : A → Nat) : Prop where
  into : SplitInto allocate g g' k
  pieces : ∀ b ∈ g.nodes, ∀ pieces, Pieces split (g'.basicBlock (allocate^[k b] b)).instructions pieces →
    Pieces split (g.basicBlock b).instructions
      ((List.range (k b)).map (fun i => (g'.basicBlock (allocate^[i] b)).instructions) ++ pieces)
  readable : ∀ n ∈ g'.nodes, (g'.basicBlock n).instructions ≠ [] → (g'.basicBlock n).startAddress = 0

variable {split : List Instruction → Nat → Nat → Option Nat} {allocate : A → A} {g g' : ControlFlowGraph A} {k : A → Nat}
  {b b' n : A} {i j index : Nat}

omit [LinearOrder A] in
theorem SplitInto.mem (h : SplitInto allocate g g' k) : n ∈ g'.nodes ↔ ∃ b ∈ g.nodes, ∃ i ≤ k b, allocate^[i] b = n := by
  simp [h.nodes.mem_iff, mem_chain]

omit [LinearOrder A] in
theorem SplitInto.mem_iterate (h : SplitInto allocate g g' k) (hb : b ∈ g.nodes) (hi : i ≤ k b) :
    allocate^[i] b ∈ g'.nodes := h.mem.2 ⟨b, hb, i, hi, rfl⟩

omit [LinearOrder A] in
/-- The new block is not one there is. -/
theorem SplitInto.new_notMem (h : SplitInto allocate g g' k) (ha : g.Allocates allocate) (hb : b ∈ g.nodes) :
    allocate^[k b + 1] b ∉ g'.nodes := by
  intro hmem
  obtain ⟨b', hb', i, hi, heq⟩ := h.mem.1 hmem
  obtain ⟨rfl, rfl⟩ := ha.unique hb' hb heq
  omega

section Blocks
variable (ha : g.Allocates allocate) (hb : b ∈ g.nodes)

/-- The last block of a chain, split in two. -/
abbrev splitLast (g' : ControlFlowGraph A) (allocate : A → A) (k : A → Nat) (b : A) (index : Nat) : ControlFlowGraph A :=
  g'.splitBasicBlockAtIndex (allocate^[k b] b) (allocate^[k b + 1] b) index

theorem basicBlock_last : ((splitLast g' allocate k b index).basicBlock (allocate^[k b] b)).instructions =
    (g'.basicBlock (allocate^[k b] b)).instructions.take index := by
  simp [splitBasicBlockAtIndex]

include ha hb in
theorem basicBlock_new : (splitLast g' allocate k b index).basicBlock (allocate^[k b + 1] b) =
    ⟨0, (g'.basicBlock (allocate^[k b] b)).instructions.drop index⟩ := by
  have hne : allocate^[k b + 1] b ≠ allocate^[k b] b := fun heq => by
    have := (ha.unique hb hb heq).2
    omega
  simp only [splitBasicBlockAtIndex]
  rw [Function.update_of_ne hne, Function.update_self]

theorem basicBlock_other (hn : n ≠ allocate^[k b] b) (hn' : n ≠ allocate^[k b + 1] b) :
    (splitLast g' allocate k b index).basicBlock n = g'.basicBlock n := by
  simp only [splitBasicBlockAtIndex]
  rw [Function.update_of_ne hn, Function.update_of_ne hn']

include ha hb in
/-- The blocks before the last of the chain, and those of other chains, are as they were. -/
theorem basicBlock_iterate (hb' : b' ∈ g.nodes) (h : b' = b → i < k b) :
    (splitLast g' allocate k b index).basicBlock (allocate^[i] b') = g'.basicBlock (allocate^[i] b') := by
  refine basicBlock_other (fun heq => ?_) fun heq => ?_ <;>
  · obtain ⟨rfl, rfl⟩ := ha.unique hb' hb heq
    have := h rfl
    omega

end Blocks

section Next
variable (hg : g.WellFormed) (ha : g.Allocates allocate) (hb : b ∈ g.nodes)

include hg hb

/-- A new block at the end of the chain. -/
theorem SplitInto.nodes_next (h : SplitInto allocate g g' k) :
    (splitLast g' allocate k b index).nodes.Perm
      (g.nodes.flatMap fun a => chain allocate a (Function.update k b (k b + 1) a)) := by
  refine (h.nodes.append_right _).trans (flatMap_update_perm hg.nodup hb (fun a hne => ?_) ?_).symm
  · rw [Function.update_of_ne hne]
  · rw [Function.update_self, chain_succ]

include ha

/-- The edges of the block go out from the new one. -/
theorem SplitInto.edges_next (h : SplitInto allocate g g' k) :
    (splitLast g' allocate k b index).edges.Perm
      (g.edges.map (fromLast allocate (Function.update k b (k b + 1))) ++
        g.nodes.flatMap fun a => callEdges allocate a (Function.update k b (k b + 1) a)) := by
  refine List.Perm.trans ((moveOutEdges_perm ..).append_right _) (((h.edges.map _).append_right _).trans ?_)
  rw [List.map_append, List.append_assoc]
  have hmoved : (g.edges.map (fromLast allocate k)).map (fun e =>
      if e.tail = allocate^[k b] b then { e with tail := allocate^[k b + 1] b } else e) =
      g.edges.map (fromLast allocate (Function.update k b (k b + 1))) := by
    rw [List.map_map]
    refine List.map_congr_left fun e he => ?_
    by_cases htail : e.tail = b
    · simp [fromLast, htail]
    · have hne : allocate^[k e.tail] e.tail ≠ allocate^[k b] b := fun heq =>
        htail (ha.unique (hg.tail e he) hb heq).1
      simp [fromLast, hne, Function.update_of_ne htail]
  have hcalls : (g.nodes.flatMap fun a => callEdges allocate a (k a)).map (fun e =>
      if e.tail = allocate^[k b] b then { e with tail := allocate^[k b + 1] b } else e) =
      g.nodes.flatMap fun a => callEdges allocate a (k a) := by
    refine (List.map_congr_left fun e he => ?_).trans (List.map_id _)
    obtain ⟨a, hmem, he⟩ := List.mem_flatMap.1 he
    obtain ⟨i, hi, rfl⟩ := List.mem_map.1 he
    have hne : allocate^[i] a ≠ allocate^[k b] b := fun heq => by
      obtain ⟨rfl, rfl⟩ := ha.unique hmem hb heq
      exact absurd (List.mem_range.1 hi) (Nat.lt_irrefl _)
    simp [callEdge, hne]
  rw [hmoved, hcalls]
  refine List.Perm.append_left _ (flatMap_update_perm hg.nodup hb (fun a hne => ?_) ?_).symm
  · rw [Function.update_of_ne hne]
  · rw [Function.update_self, callEdges_succ]

omit hg in
/-- The blocks before the last one of each chain keep their instructions. -/
theorem instructions_init (hmem : b' ∈ g.nodes) :
    (List.range (k b')).map (fun i => ((splitLast g' allocate k b index).basicBlock (allocate^[i] b')).instructions) =
      (List.range (k b')).map fun i => (g'.basicBlock (allocate^[i] b')).instructions :=
  List.map_congr_left fun i hi => by
    rw [basicBlock_iterate ha hb hmem fun heq => heq ▸ List.mem_range.1 hi]

omit hg in
theorem SplitInto.instructions_next (h : SplitInto allocate g g' k) (hmem : b' ∈ g.nodes) :
    (g.basicBlock b').instructions = (chain allocate b' (Function.update k b (k b + 1) b')).flatMap fun n =>
      ((splitLast g' allocate k b index).basicBlock n).instructions := by
  rw [h.instructions b' hmem]
  by_cases hne : b' = b
  · subst hne
    have hinit : ((List.range (k b')).map fun i =>
        ((splitLast g' allocate k b' index).basicBlock (allocate^[i] b')).instructions).flatten =
        ((List.range (k b')).map fun i => (g'.basicBlock (allocate^[i] b')).instructions).flatten :=
      congrArg List.flatten (instructions_init ha hmem hmem)
    rw [Function.update_self, chain_succ, chain, List.range_succ, List.map_append]
    simp only [List.flatMap_append, List.map_cons, List.map_nil, List.flatMap_cons, List.flatMap_nil, List.append_nil,
      List.append_assoc, List.flatMap_map]
    rw [basicBlock_last, basicBlock_new ha hmem, List.take_append_drop]
    simpa [List.flatMap_def] using hinit.symm
  · rw [Function.update_of_ne hne]
    refine List.flatMap_congr fun n hn => ?_
    obtain ⟨i, -, rfl⟩ := mem_chain.1 hn
    rw [basicBlock_iterate ha hb hmem fun heq => absurd heq hne]

theorem Reached.next (h : Reached split allocate g g' k)
    (hindex : splitIndex split (g'.basicBlock (allocate^[k b] b)).instructions = some index) :
    Reached split allocate g (splitLast g' allocate k b index) (Function.update k b (k b + 1)) := by
  refine ⟨⟨h.into.nodes_next hg hb, fun a hmem => h.into.instructions_next ha hb hmem, h.into.edges_next hg ha hb⟩,
    fun a hmem pieces hp => ?_, fun n hn hne => ?_⟩
  · by_cases hne : a = b
    · subst hne
      rw [Function.update_self] at hp ⊢
      rw [basicBlock_new ha hmem] at hp
      have hcut := h.pieces a hmem _ (.cut hindex hp)
      rw [List.range_succ, List.map_append, instructions_init ha hmem hmem]
      simpa [basicBlock_last] using hcut
    · rw [Function.update_of_ne hne] at hp ⊢
      rw [basicBlock_iterate ha hb hmem fun heq => absurd heq hne] at hp
      rw [instructions_init ha hb hmem]
      exact h.pieces a hmem pieces hp
  · by_cases hnew : n = allocate^[k b + 1] b
    · rw [hnew, basicBlock_new ha hb]
    · have hn : n ∈ g'.nodes := (List.mem_append.1 hn).resolve_right fun h => hnew (List.mem_singleton.1 h)
      by_cases hlast : n = allocate^[k b] b
      · subst hlast
        rw [basicBlock_last] at hne
        have hstart := h.readable _ hn fun hnil => hne (by rw [hnil, List.take_nil])
        simpa [splitBasicBlockAtIndex] using hstart
      · rw [basicBlock_other hlast hnew] at hne ⊢
        exact h.readable n hn hne

end Next

end Split

end Tce.CFG.ControlFlowGraph
