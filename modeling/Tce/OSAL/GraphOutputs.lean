import Tce.Base.Acyclic
import Tce.OSAL.BuiltDAG

/-!
# Finished graphs

A finished graph has no cycle. Its output terminals get the results that the
operands have at the end.
-/

namespace Tce.OSAL

open OperationDAGBuilder (WellBuilt IOMarked Tracks source outputEdge)

/-- The nodes and edges of the statements, and the output terminals. -/
structure Finished (operation : Operation) (b : OperationDAGBuilder) (outputs : List Nat) (dag : OperationDAG) :
    Prop where
  wellBuilt : b.WellBuilt none
  nodes : dag.nodes = b.dag.nodes ++ outputs.map .terminal
  edges : dag.edges = b.dag.edges ++ (outputs.zipIdx b.dag.nodes.length).map (outputEdge b.variableBindings)
  bound : ∀ k ∈ outputs, k ≤ operation.operandCount ∧ ∃ n operand, b.variableBindings (.io k) = some ⟨some n, operand⟩

namespace Finished
variable {operation : Operation} {b : OperationDAGBuilder} {outputs : List Nat} {dag : OperationDAG}

theorem source_eq (h : Finished operation b outputs dag) {k : Nat} (hk : k ∈ outputs) :
    b.variableBindings (.io k) =
      some ⟨some (source b.variableBindings k).1, (source b.variableBindings k).2⟩ ∧
    IsSource b.dag.nodes (source b.variableBindings k).1 (source b.variableBindings k).2 := by
  obtain ⟨-, n, operand, hbinding⟩ := h.bound k hk
  unfold source
  rw [hbinding]
  exact ⟨rfl, (h.wellBuilt.binding _ _ n hbinding rfl).1⟩

theorem isOperation_iff (h : Finished operation b outputs dag) (n : Nat) :
    IsOperation dag.nodes n ↔ IsOperation b.dag.nodes n := by
  unfold IsOperation
  rw [h.nodes]
  constructor
  · rintro ⟨op, hop⟩
    refine ⟨op, ?_⟩
    by_cases hn : n < b.dag.nodes.length
    · rwa [List.getElem?_append_left hn] at hop
    · rw [List.getElem?_append_right (Nat.le_of_not_lt hn), List.getElem?_map] at hop
      obtain ⟨k, -, hk⟩ := Option.map_eq_some_iff.1 hop
      cases hk
  · rintro ⟨op, hop⟩
    exact ⟨op, getElem?_append_some hop⟩

theorem isOperation_lt (h : Finished operation b outputs dag) {n : Nat} (hn : IsOperation dag.nodes n) :
    n < b.dag.nodes.length := by
  obtain ⟨op, hop⟩ := (h.isOperation_iff n).1 hn
  exact (List.getElem?_eq_some_iff.1 hop).1

theorem node_eq (h : Finished operation b outputs dag) {n : Nat} (hn : n < b.dag.nodes.length) :
    dag.nodes[n]? = b.dag.nodes[n]? := by
  rw [h.nodes, List.getElem?_append_left hn]

/-- An output terminal is the head of its edge. -/
theorem outputTerminal (h : Finished operation b outputs dag) {io : Nat × Nat}
    (hio : io ∈ outputs.zipIdx b.dag.nodes.length) :
    io.1 ∈ outputs ∧ b.dag.nodes.length ≤ io.2 ∧ dag.nodes[io.2]? = some (.terminal io.1) := by
  obtain ⟨hle, hlt, heq⟩ := List.mem_zipIdx hio
  refine ⟨heq ▸ List.getElem_mem _, hle, ?_⟩
  rw [h.nodes, List.getElem?_append_right hle, List.getElem?_map, List.getElem?_eq_getElem (by omega), heq]
  rfl

theorem mem_edges (h : Finished operation b outputs dag) {e : OperationDAGEdge} (he : e ∈ dag.edges) :
    e ∈ b.dag.edges ∨ ∃ io ∈ outputs.zipIdx b.dag.nodes.length, e = outputEdge b.variableBindings io := by
  rw [h.edges] at he
  cases List.mem_append.1 he with
  | inl he => exact .inl he
  | inr he =>
    obtain ⟨io, hio, rfl⟩ := List.mem_map.1 he
    exact .inr ⟨io, hio, rfl⟩

theorem tail_lt (h : Finished operation b outputs dag) {e : OperationDAGEdge} (he : e ∈ dag.edges) :
    e.tail < b.dag.nodes.length := by
  rcases h.mem_edges he with he | ⟨io, hio, rfl⟩
  · exact (h.wellBuilt.edge e he).1.lt
  · exact (h.source_eq (h.outputTerminal hio).1).2.lt

/-! ## No cycles -/

open Classical in
/-- Terminals for reading and constants come first, then operations, then output terminals. -/
noncomputable def rank (b : OperationDAGBuilder) (n : Nat) : Nat :=
  if n < b.dag.nodes.length then if IsOperation b.dag.nodes n then n + 1 else 0 else b.dag.nodes.length + 1

theorem rank_lt (h : Finished operation b outputs dag) {m n : Nat} (hedge : dag.IsEdge m n) : rank b m < rank b n := by
  obtain ⟨e, he, rfl, rfl⟩ := hedge
  have htail := h.tail_lt he
  rcases h.mem_edges he with he | ⟨io, hio, rfl⟩
  · obtain ⟨-, ⟨op, hop, -⟩, hup⟩ := h.wellBuilt.edge e he
    have hhead : rank b e.head = e.head + 1 := by
      unfold rank
      rw [if_pos (List.getElem?_eq_some_iff.1 hop).1, if_pos ⟨op, hop⟩]
    rw [hhead]
    unfold rank
    rw [if_pos htail]
    split
    · next htailop =>
      have := hup htailop
      omega
    · exact Nat.succ_pos _
  · have hle := (h.outputTerminal hio).2.1
    have hhead : rank b (outputEdge b.variableBindings io).head = b.dag.nodes.length + 1 := if_neg (Nat.not_lt.2 hle)
    rw [hhead]
    unfold rank
    rw [if_pos htail]
    split <;> omega

theorem acyclic (h : Finished operation b outputs dag) : Acyclic dag.IsEdge :=
  acyclic_of_rank (rank b) fun _ _ => h.rank_lt

theorem predecessors_lt (h : Finished operation b outputs dag) (n : Nat) :
    ∀ m ∈ dag.predecessors n, m < dag.nodes.length := by
  intro m hm
  obtain ⟨e, he, rfl, -⟩ := OperationDAG.mem_predecessors.1 hm
  have := h.tail_lt he
  rw [h.nodes, List.length_append]
  omega

theorem exists_depth (h : Finished operation b outputs dag) : ∃ depth, Levels.IsDepth dag.predecessors depth :=
  Levels.exists_depth (rank b) fun _ _ hm => h.rank_lt (OperationDAG.mem_predecessors.1 hm)

/-! ## Edges of operation nodes -/

theorem inEdges_eq (h : Finished operation b outputs dag) {n : Nat} (hn : n < b.dag.nodes.length) :
    dag.inEdges n = b.dag.inEdges n := by
  unfold OperationDAG.inEdges
  have hnone : ((outputs.zipIdx b.dag.nodes.length).map (outputEdge b.variableBindings)).filter (fun e => e.head = n) =
      [] := by
    rw [List.filter_eq_nil_iff]
    intro e he
    obtain ⟨io, hio, rfl⟩ := List.mem_map.1 he
    have hle := (h.outputTerminal hio).2.1
    rw [decide_eq_true_iff]
    exact (Nat.ne_of_lt (Nat.lt_of_lt_of_le hn hle)).symm
  rw [h.edges, List.filter_append, hnone, List.append_nil]

/-- The edges from an operand of a node. -/
def edgesFrom (dag : OperationDAG) (n operand : Nat) : List OperationDAGEdge :=
  (dag.outEdges n).filter fun e => e.srcOperand = operand

/-- The output terminals that an operand of a node is connected to. -/
def outputsFrom (b : OperationDAGBuilder) (outputs : List Nat) (n operand : Nat) : List Nat :=
  outputs.filter fun k => source b.variableBindings k = (n, operand)

theorem edgesFrom_eq (h : Finished operation b outputs dag) (n operand : Nat) :
    edgesFrom dag n operand = edgesFrom b.dag n operand ++
      ((outputs.zipIdx b.dag.nodes.length).filter fun io => source b.variableBindings io.1 = (n, operand)).map
        (outputEdge b.variableBindings) := by
  unfold edgesFrom OperationDAG.outEdges
  rw [h.edges, List.filter_append, List.filter_append]
  congr 1
  rw [List.filter_filter, List.filter_map]
  congr 1
  apply List.filter_congr
  intro io _
  unfold outputEdge
  rw [Bool.eq_iff_iff]
  simp only [Function.comp_apply, Bool.and_eq_true, decide_eq_true_iff, Prod.ext_iff]
  exact and_comm

theorem outputsFrom_eq (b : OperationDAGBuilder) (outputs : List Nat) (n operand : Nat) :
    outputsFrom b outputs n operand = ((outputs.zipIdx b.dag.nodes.length).filter fun io =>
      source b.variableBindings io.1 = (n, operand)).map Prod.fst := by
  unfold outputsFrom
  conv_lhs => rw [← List.zipIdx_map_fst b.dag.nodes.length outputs]
  rw [List.filter_map]
  rfl

/-- The last edge from an operand is to the last of its output terminals, if it has any. -/
theorem getLast?_edgesFrom (h : Finished operation b outputs dag) (n operand : Nat) :
    match (outputsFrom b outputs n operand).getLast? with
    | some k => ∃ e, (edgesFrom dag n operand).getLast? = some e ∧ dag.nodes[e.head]? = some (.terminal k)
    | none => (edgesFrom dag n operand).getLast? = (edgesFrom b.dag n operand).getLast? := by
  rw [h.edgesFrom_eq, outputsFrom_eq, List.getLast?_map, List.getLast?_append, List.getLast?_map]
  cases hlast : ((outputs.zipIdx b.dag.nodes.length).filter fun io =>
      source b.variableBindings io.1 = (n, operand)).getLast? with
  | none => rfl
  | some io =>
    have hio := (List.mem_filter.1 (List.mem_of_getLast? hlast)).1
    exact ⟨outputEdge b.variableBindings io, rfl, (h.outputTerminal hio).2.2⟩

end Finished

end Tce.OSAL
