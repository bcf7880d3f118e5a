import Tce.OSAL.Simulation

/-!
# The script of an operation

The script of the graph of an operation executes what its symbolic execution
records, the least nested first.
-/

namespace Tce.OSAL

open OperationDAGBuilder (Tracks IOMarked outputTerminals source parseNode)
open Finished (edgesFrom outputsFrom)
open OperationDAGBehavior (IsConnected IsScript IsSimulable IsTopological addStep)

/-! ## Depths -/

theorem depths_concat (executions : List OperationExecution) (e : OperationExecution) :
    depths (executions ++ [e]) =
      depths executions ++ [(e.inputs.map fun o => o.depth (depths executions) + 1).foldr max 0] := by
  unfold depths
  rw [List.foldl_append]
  rfl

theorem length_depths (executions : List OperationExecution) : (depths executions).length = executions.length := by
  induction executions using List.reverseRecOn with
  | nil => rfl
  | append_singleton executions e ih => rw [depths_concat, List.length_append, List.length_append, ih]; rfl

theorem InOrder.initial {executions more : List OperationExecution} (h : InOrder (executions ++ more)) :
    InOrder executions := by
  intro i e he o ho
  have hi : i < executions.length := (List.getElem?_eq_some_iff.1 he).1
  have := h i e (getElem?_append_some he) o ho
  rwa [List.take_append_of_le_length (Nat.le_of_lt hi)] at this

theorem depth_append {ds more : List Nat} {o : Origin} (h : ∀ j, o.execution? = some j → j < ds.length) :
    o.depth (ds ++ more) = o.depth ds := by
  cases o with
  | operand => rfl
  | constant => rfl
  | result j =>
    unfold Origin.depth
    dsimp only
    rw [List.getD_eq_getElem?_getD, List.getD_eq_getElem?_getD, List.getElem?_append_left (h j rfl)]

/-- An operation is one deeper than the deepest of its inputs. -/
theorem depths_eq {executions : List OperationExecution} (h : InOrder executions) {i : Nat} {e : OperationExecution}
    (he : executions[i]? = some e) : (depths executions).getD i 0 =
      (e.inputs.map fun o => o.depth (depths executions) + 1).foldr max 0 := by
  induction executions using List.reverseRecOn generalizing i e with
  | nil => cases he
  | append_singleton executions e' ih =>
    have hlength := length_depths executions
    have hinputs : ∀ o ∈ e.inputs, o.depth (depths (executions ++ [e'])) = o.depth (depths executions) := by
      intro o ho
      rw [depths_concat]
      apply depth_append
      intro j hj
      have hlt := (h i e he o ho).lt hj
      have hi := (List.getElem?_eq_some_iff.1 he).1
      rw [List.length_append, List.length_singleton] at hi
      omega
    rw [List.map_congr_left fun o ho => by rw [hinputs o ho], depths_concat, List.getD_eq_getElem?_getD]
    by_cases hi : i < executions.length
    · rw [List.getElem?_append_left hi] at he
      rw [List.getElem?_append_left (hlength ▸ hi), ← List.getD_eq_getElem?_getD]
      exact ih h.initial he
    · have hi' := (List.getElem?_eq_some_iff.1 he).1
      rw [List.length_append, List.length_singleton] at hi'
      obtain rfl : i = executions.length := by omega
      rw [List.getElem?_concat_length] at he
      cases he
      rw [← hlength, List.getElem?_concat_length]
      rfl

/-! ## Graphs of operations -/

/-- The graph of an operation with what its statements execute. -/
structure IsGraphOf (opPool : String → Option Operation) (operation : Operation) (statements : List Statement)
    (s : ExecutionState Origin (List OperationExecution)) (b : OperationDAGBuilder) (outputs : List Nat)
    (dag : OperationDAG) : Prop where
  tracks : b.Tracks operation s
  finished : Finished operation b outputs dag
  sorted : outputs.Pairwise fun k k' => ioName k ≤ ioName k'
  mem_outputs : ∀ k, k ∈ outputs ↔
    (b.variableBindings (.io k)).isSome = true ∧ isReadFirst opPool k statements = false
  terminal : ∀ k, .terminal k ∈ b.dag.nodes ↔ isReadFirst opPool k statements = true
  isOutput : ∀ k, operation.isOutput k = true → (b.variableBindings (.io k)).isSome = true

variable {opPool : String → Option Operation} {operation : Operation} {statements : List Statement}
  {s : ExecutionState Origin (List OperationExecution)} {b : OperationDAGBuilder} {outputs : List Nat}
  {dag : OperationDAG}

theorem exists_finished (h : OperationDAGBuilder.parse opPool operation statements = .ok dag) :
    ∃ b, statements.foldlM (parseNode opPool) .new = .ok b ∧
      Finished operation b (outputTerminals b.sortedIOVariables) dag ∧
      ∀ k, operation.isOutput k = true → k ∈ b.ioVariables.map Prod.fst := by
  obtain ⟨b, b', hb, hfinalize, rfl⟩ := OperationDAGBuilder.parse_ok h
  obtain ⟨hnodes, hedges, hbound, houtputs⟩ :=
    OperationDAGBuilder.finalize_ok (OperationDAGBuilder.ioMarked_parse hb) hfinalize
  exact ⟨b, hb, ⟨OperationDAGBuilder.wellBuilt_parse hb, hnodes, hedges, hbound⟩, houtputs⟩

theorem exists_isGraphOf (h : OperationDAGBuilder.parse opPool operation statements = .ok dag)
    (hs : executeSymbolically opPool operation statements = some s) :
    ∃ b outputs, IsGraphOf opPool operation statements s b outputs dag := by
  obtain ⟨b, hb, hfinished, houtputs⟩ := exists_finished h
  have hio := OperationDAGBuilder.ioMarked_parse hb
  have hterminal : ∀ k, .terminal k ∈ b.dag.nodes ↔ isReadFirst opPool k statements = true := by
    intro k
    rw [OperationDAGBuilder.terminal_parse hb]
    constructor
    · rintro (hk | hk)
      · cases hk
      · exact hk.2
    · exact fun hk => .inr ⟨rfl, hk⟩
  have hsome : ∀ k, k ∈ b.ioVariables.map Prod.fst → (b.variableBindings (.io k)).isSome = true := by
    intro k hk
    obtain ⟨⟨k', t⟩, hmem, rfl⟩ := List.mem_map.1 hk
    exact (hio.bound k' t hmem).resolve_left fun h => by cases h
  refine ⟨b, _, OperationDAGBuilder.tracks_parse OperationDAGBuilder.tracks_new hb hs, hfinished, ?_, fun k => ?_,
    hterminal, fun k hk => hsome k (houtputs k hk)⟩
  · unfold outputTerminals
    rw [List.pairwise_map]
    have htotal : Std.Total fun a b : Nat × Option Nat => ioName a.1 ≤ ioName b.1 :=
      ⟨fun a b => le_total (ioName a.1) (ioName b.1)⟩
    have htrans : IsTrans (Nat × Option Nat) fun a b => ioName a.1 ≤ ioName b.1 :=
      ⟨fun _ _ _ hab hbc => le_trans hab hbc⟩
    exact (List.pairwise_insertionSort _ _).filter _
  · rw [← Bool.not_eq_true, ← hterminal]
    have hmem : ∀ io : Nat × Option Nat, io ∈ b.sortedIOVariables ↔ io ∈ b.ioVariables :=
      fun io => (List.perm_insertionSort _ _).mem_iff
    unfold outputTerminals
    constructor
    · intro hk
      obtain ⟨⟨k', t⟩, hmem', rfl⟩ := List.mem_map.1 hk
      obtain ⟨hsorted, hnone⟩ := List.mem_filter.1 hmem'
      have hentry := (hmem _).1 hsorted
      exact ⟨hsome k' (List.mem_map_of_mem hentry), (hio.terminal k' t hentry).1 (Option.isNone_iff_eq_none.1 hnone)⟩
    · rintro ⟨hbound, hnot⟩
      obtain ⟨⟨k', t⟩, hentry, rfl⟩ := List.mem_map.1 (hio.referenced k (.inr hbound))
      refine List.mem_map.2 ⟨(k', t), List.mem_filter.2 ⟨(hmem _).2 hentry, ?_⟩, rfl⟩
      exact Option.isNone_iff_eq_none.2 ((hio.terminal k' t hentry).2 hnot)

namespace IsGraphOf

theorem execution (h : IsGraphOf opPool operation statements s b outputs dag) {n : Nat} {op : Operation}
    (hn : dag.nodes[n]? = some (.operation op)) :
    ∃ e, s.context[executionOf dag.nodes n]? = some e ∧ e.op = op ∧ e.inputs.length = op.numberOfInputs ∧
      inputOrigins operation dag n = (e.inputs.map some).zipIdx 1 := by
  have hlt := h.finished.isOperation_lt ⟨op, hn⟩
  have hn' : b.dag.nodes[n]? = some (.operation op) := (h.finished.node_eq hlt).symm.trans hn
  have hexecution : executionOf dag.nodes n = executionOf b.dag.nodes n := by
    rw [h.finished.nodes, executionOf_append (Nat.le_of_lt hlt)]
  have hless : executionOf b.dag.nodes n < s.context.length := by
    rw [← h.tracks.count, ← executionOf_length]
    exact executionOf_lt ⟨op, hn'⟩ hlt
  obtain ⟨e, he, hop, hlength, horigins⟩ := h.tracks.represents.executions n op hn' hless
  refine ⟨e, hexecution ▸ he, hop, hlength, ?_⟩
  rw [← horigins]
  unfold inputOrigins
  rw [h.finished.inEdges_eq hlt, h.finished.nodes]
  apply List.map_congr_left
  intro edge hedge
  rw [nodeOrigin_append (h.tracks.wellBuilt.edge edge (OperationDAG.mem_inEdges.1 hedge).1).1.lt]

theorem exists_executionOf {nodes : List OperationDAGNode} {i : Nat} (hi : i < nodes.countP (·.isOperation)) :
    ∃ n, IsOperation nodes n ∧ executionOf nodes n = i := by
  induction nodes using List.reverseRecOn with
  | nil => cases hi
  | append_singleton nodes node ih =>
    rw [List.countP_append, List.countP_singleton] at hi
    by_cases hlt : i < nodes.countP (·.isOperation)
    · obtain ⟨n, ⟨op, hop⟩, hn⟩ := ih hlt
      refine ⟨n, ⟨op, getElem?_append_some hop⟩, ?_⟩
      rw [executionOf_append (Nat.le_of_lt (List.getElem?_eq_some_iff.1 hop).1), hn]
    · have hnode : node.isOperation = true := by
        by_contra hnot
        rw [if_neg hnot] at hi
        omega
      rw [if_pos hnode] at hi
      refine ⟨nodes.length, OperationDAGBuilder.isOperation_concat.2 (.inr ⟨rfl, hnode⟩), ?_⟩
      rw [executionOf_append (Nat.le_refl _), executionOf_length]
      omega

/-- Each execution has its node. -/
theorem exists_node (h : IsGraphOf opPool operation statements s b outputs dag) {i : Nat} {e : OperationExecution}
    (he : s.context[i]? = some e) : ∃ n, dag.nodes[n]? = some (.operation e.op) ∧ executionOf dag.nodes n = i := by
  have hi : i < b.dag.nodes.countP (·.isOperation) := by
    rw [h.tracks.count]
    exact (List.getElem?_eq_some_iff.1 he).1
  obtain ⟨n, ⟨op, hop⟩, hn⟩ := exists_executionOf hi
  have hlt := (List.getElem?_eq_some_iff.1 hop).1
  have hnode : dag.nodes[n]? = some (.operation op) := (h.finished.node_eq hlt).trans hop
  have hexecution : executionOf dag.nodes n = i := by
    rw [h.finished.nodes, executionOf_append (Nat.le_of_lt hlt), hn]
  obtain ⟨e', he', hop', -⟩ := h.execution hnode
  rw [hexecution, he] at he'
  cases he'
  exact ⟨n, hop' ▸ hnode, hexecution⟩

theorem isSource (h : IsGraphOf opPool operation statements s b outputs dag) {e : OperationDAGEdge}
    (he : e ∈ dag.edges) : IsSource dag.nodes e.tail e.srcOperand := by
  rw [h.finished.nodes]
  rcases h.finished.mem_edges he with he | ⟨io, hio, rfl⟩
  · exact (h.tracks.wellBuilt.edge e he).1.append _
  · exact (h.finished.source_eq (h.finished.outputTerminal hio).1).2.append _

theorem isConnected (h : IsGraphOf opPool operation statements s b outputs dag) {n : Nat} {op : Operation}
    (hn : dag.nodes[n]? = some (.operation op)) : IsConnected dag n op := by
  have hlt := h.finished.isOperation_lt ⟨op, hn⟩
  obtain ⟨e, -, -, -, horigins⟩ := h.execution hn
  refine ⟨hn, fun edge hedge => ?_, ?_, fun edge hedge => ?_⟩
  · rw [h.finished.inEdges_eq hlt] at hedge
    obtain ⟨hmem, rfl⟩ := OperationDAG.mem_inEdges.1 hedge
    obtain ⟨-, ⟨op', hop', hinput⟩, -⟩ := h.tracks.wellBuilt.edge edge hmem
    rw [h.finished.node_eq hlt, hop'] at hn
    cases hn
    exact hinput
  · have hdst : (dag.inEdges n).map (·.dstOperand) = List.range' 1 (e.inputs.map some).length := by
      rw [← List.zipIdx_map_snd 1 (e.inputs.map some), ← horigins]
      unfold inputOrigins
      rw [List.map_map]
      rfl
    have hmap : ((dag.inEdges n).map fun e => e.dstOperand - 1) = ((dag.inEdges n).map (·.dstOperand)).map (· - 1) := by
      rw [List.map_map]
      rfl
    rw [hmap, hdst, List.range'_eq_map_range, List.map_map]
    apply List.Nodup.map _ List.nodup_range
    intro x y hxy
    simpa using hxy
  · obtain ⟨hmem, rfl⟩ := OperationDAG.mem_outEdges.1 hedge
    obtain ⟨node, hnode, hout⟩ := h.isSource hmem
    exact hout op (Option.some.inj (hnode.symm.trans hn))

theorem tail_lt_of_inEdge (h : IsGraphOf opPool operation statements s b outputs dag) {n : Nat}
    (hn : IsOperation dag.nodes n) {e : OperationDAGEdge} (he : e ∈ dag.inEdges n)
    (htail : IsOperation dag.nodes e.tail) : e.tail < n := by
  rw [h.finished.inEdges_eq (h.finished.isOperation_lt hn)] at he
  obtain ⟨hmem, rfl⟩ := OperationDAG.mem_inEdges.1 he
  exact (h.tracks.wellBuilt.edge e hmem).2.2 ((h.finished.isOperation_iff _).1 htail)

/-- A node that is not of an operation and has edges from it has none to it. -/
theorem depth_eq_zero (h : IsGraphOf opPool operation statements s b outputs dag) {depth : Nat → Nat}
    (hdepth : Levels.IsDepth dag.predecessors depth) {e : OperationDAGEdge} (he : e ∈ dag.edges)
    (htail : ¬ IsOperation dag.nodes e.tail) : depth e.tail = 0 := by
  have hnone : dag.predecessors e.tail = [] := by
    rw [List.eq_nil_iff_forall_not_mem]
    intro m hm
    obtain ⟨e', he', rfl, hhead⟩ := OperationDAG.mem_predecessors.1 hm
    rcases h.finished.mem_edges he' with hmem | ⟨io, hio, rfl⟩
    · obtain ⟨-, ⟨op, hop, -⟩, -⟩ := h.tracks.wellBuilt.edge e' hmem
      rw [hhead] at hop
      exact htail ((h.finished.isOperation_iff _).2 ⟨op, hop⟩)
    · have hle := (h.finished.outputTerminal hio).2.1
      have hlt := h.finished.tail_lt he
      change io.2 = e.tail at hhead
      omega
  rw [hdepth e.tail, hnone]
  rfl

/-- An operation node is as deep as what it executes is nested. -/
theorem depth_eq (h : IsGraphOf opPool operation statements s b outputs dag) {depth : Nat → Nat}
    (hdepth : Levels.IsDepth dag.predecessors depth) {n : Nat} : IsOperation dag.nodes n →
    depth n = (depths s.context).getD (executionOf dag.nodes n) 0 := by
  induction n using Nat.strong_induction_on with
  | _ n ih =>
    rintro ⟨op, hn⟩
    obtain ⟨e, he, -, -, horigins⟩ := h.execution hn
    have hinputs : (dag.inEdges n).map (fun edge => nodeOrigin operation dag.nodes edge.tail edge.srcOperand) =
        e.inputs.map some := by
      rw [← List.zipIdx_map_fst 1 (e.inputs.map some), ← horigins]
      unfold inputOrigins
      rw [List.map_map]
      rfl
    have hedge : ∀ edge ∈ dag.inEdges n, ∀ o, nodeOrigin operation dag.nodes edge.tail edge.srcOperand = some o →
        o.depth (depths s.context) = depth edge.tail := by
      intro edge hedge o ho
      have hmem := (OperationDAG.mem_inEdges.1 hedge).1
      by_cases htail : IsOperation dag.nodes edge.tail
      · rw [ih edge.tail (h.tail_lt_of_inEdge ⟨op, hn⟩ hedge htail) htail]
        obtain ⟨op', hop'⟩ := htail
        unfold nodeOrigin at ho
        rw [hop'] at ho
        cases ho
        rfl
      · rw [h.depth_eq_zero hdepth hmem htail]
        unfold nodeOrigin at ho
        split at ho
        · obtain ⟨-, heq⟩ := Option.ite_none_right_eq_some.1 ho
          cases heq
          rfl
        · cases ho
          rfl
        · next op' hop' => exact absurd ⟨op', hop'⟩ htail
        · cases ho
    rw [hdepth n, depths_eq h.tracks.recorded.inOrder he]
    congr 1
    unfold OperationDAG.predecessors
    rw [List.map_map]
    have hmap : e.inputs.map (fun o => o.depth (depths s.context) + 1) =
        (e.inputs.map some).map fun o => (o.map (Origin.depth (depths s.context))).getD 0 + 1 := by
      rw [List.map_map]
      rfl
    rw [hmap, ← hinputs, List.map_map]
    apply List.map_congr_left
    intro edge hmem
    have hsome : nodeOrigin operation dag.nodes edge.tail edge.srcOperand ∈ e.inputs.map some :=
      hinputs ▸ List.mem_map_of_mem hmem
    obtain ⟨o, -, ho⟩ := List.mem_map.1 hsome
    dsimp only [Function.comp_apply]
    rw [← ho, Option.map_some, Option.getD_some, hedge edge hmem o ho.symm]

/-! ## Places of results -/

end IsGraphOf

/-- An operand is only written, and has a result of an execution at the end. -/
def IsWritten (opPool : String → Option Operation) (statements : List Statement)
    (s : ExecutionState Origin (List OperationExecution)) (k execution index : Nat) : Prop :=
  isReadFirst opPool k statements = false ∧ s.values (.io k) = some (.result execution index)

theorem nodeOrigin_eq_result {nodes : List OperationDAGNode} {n n' q q' : Nat} {op : Operation}
    (hn : nodes[n]? = some (.operation op)) (hq : op.isOutput q = true) (hsource : IsSource nodes n' q')
    (h : nodeOrigin operation nodes n' q' =
      some (.result (executionOf nodes n) (q - op.numberOfInputs - 1))) : n' = n ∧ q' = q := by
  obtain ⟨node, hnode, hout⟩ := hsource
  unfold nodeOrigin at h
  rw [hnode] at h
  cases node with
  | terminal k =>
    obtain ⟨-, heq⟩ := Option.ite_none_right_eq_some.1 h
    cases heq
  | constant v => cases h
  | operation op' =>
    obtain ⟨hexecution, hindex⟩ := Origin.result.inj (Option.some.inj h)
    obtain rfl := executionOf_inj ⟨op', hnode⟩ ⟨op, hn⟩ hexecution
    rw [hn] at hnode
    cases hnode
    have := OperationDAGBehavior.lt_of_isOutput hq
    have := OperationDAGBehavior.lt_of_isOutput (hout op rfl)
    exact ⟨rfl, by omega⟩

namespace IsGraphOf

theorem mem_outputsFrom (h : IsGraphOf opPool operation statements s b outputs dag) {n q k : Nat} {op : Operation}
    (hn : dag.nodes[n]? = some (.operation op)) (hq : op.isOutput q = true) : k ∈ outputsFrom b outputs n q ↔
      IsWritten opPool statements s k (executionOf dag.nodes n) (q - op.numberOfInputs - 1) := by
  have hlt := h.finished.isOperation_lt ⟨op, hn⟩
  have hn' : b.dag.nodes[n]? = some (.operation op) := (h.finished.node_eq hlt).symm.trans hn
  have hexecution : executionOf dag.nodes n = executionOf b.dag.nodes n := by
    rw [h.finished.nodes, executionOf_append (Nat.le_of_lt hlt)]
  rw [hexecution]
  unfold outputsFrom IsWritten
  rw [List.mem_filter, decide_eq_true_iff]
  have hvalue : ∀ m operand, b.variableBindings (.io k) = some ⟨some m, operand⟩ →
      s.values (.io k) = nodeOrigin operation b.dag.nodes m operand := by
    intro m operand hbinding
    rw [h.tracks.represents.values, hbinding]
    rfl
  constructor
  · rintro ⟨hk, hsource⟩
    refine ⟨((h.mem_outputs k).1 hk).2, ?_⟩
    have hbinding := (h.finished.source_eq hk).1
    rw [hsource] at hbinding
    rw [hvalue n q hbinding]
    unfold nodeOrigin
    rw [hn']
  · rintro ⟨hread, hresult⟩
    have hbound : (b.variableBindings (.io k)).isSome = true := by
      by_contra hnone
      rw [h.tracks.represents.values, Option.not_isSome_iff_eq_none.1 hnone] at hresult
      obtain ⟨-, heq⟩ := Option.ite_none_right_eq_some.1 hresult
      cases heq
    have hk : k ∈ outputs := (h.mem_outputs k).2 ⟨hbound, hread⟩
    obtain ⟨hbinding, hsource⟩ := h.finished.source_eq hk
    refine ⟨hk, ?_⟩
    rw [hvalue _ _ hbinding] at hresult
    exact Prod.ext (nodeOrigin_eq_result hn' hq hsource hresult).1 (nodeOrigin_eq_result hn' hq hsource hresult).2

/-- A result has edges to operations if it is an input of one that is executed. -/
theorem edgesFrom_ne_nil (h : IsGraphOf opPool operation statements s b outputs dag) {n q : Nat} {op : Operation}
    (hn : dag.nodes[n]? = some (.operation op)) (hq : op.isOutput q = true) : edgesFrom b.dag n q ≠ [] ↔
      ∃ e ∈ s.context, .result (executionOf dag.nodes n) (q - op.numberOfInputs - 1) ∈ e.inputs := by
  constructor
  · intro hne
    obtain ⟨edge, hedge⟩ := List.exists_mem_of_ne_nil _ hne
    obtain ⟨hout, hsrc⟩ := List.mem_filter.1 hedge
    obtain ⟨hmem, rfl⟩ := OperationDAG.mem_outEdges.1 hout
    obtain ⟨-, ⟨op', hop', -⟩, -⟩ := h.tracks.wellBuilt.edge edge hmem
    obtain ⟨e, he, -, -, horigins⟩ := h.execution (h.finished.nodes ▸ getElem?_append_some hop')
    have hin : edge ∈ dag.inEdges edge.head :=
      OperationDAG.mem_inEdges.2 ⟨h.finished.edges ▸ List.mem_append_left _ hmem, rfl⟩
    refine ⟨e, List.mem_of_getElem? he, ?_⟩
    have hmap : (nodeOrigin operation dag.nodes edge.tail edge.srcOperand, edge.dstOperand) ∈
        (e.inputs.map some).zipIdx 1 := horigins ▸ List.mem_map_of_mem hin
    have hsome : nodeOrigin operation dag.nodes edge.tail edge.srcOperand ∈ e.inputs.map some := by
      rw [← List.zipIdx_map_fst 1 (e.inputs.map some)]
      exact List.mem_map_of_mem (f := Prod.fst) hmap
    have horigin : nodeOrigin operation dag.nodes edge.tail edge.srcOperand =
        some (.result (executionOf dag.nodes edge.tail) (q - op.numberOfInputs - 1)) := by
      unfold nodeOrigin
      rw [hn, of_decide_eq_true hsrc]
    rw [horigin] at hsome
    obtain ⟨o, ho, heq⟩ := List.mem_map.1 hsome
    cases heq
    exact ho
  · rintro ⟨e, he, hmem⟩
    obtain ⟨i, hi, rfl⟩ := List.getElem_of_mem he
    obtain ⟨n', hn', hexecution⟩ := h.exists_node (List.getElem?_eq_getElem hi)
    obtain ⟨e', he', -, -, horigins⟩ := h.execution hn'
    rw [hexecution, List.getElem?_eq_getElem hi] at he'
    cases he'
    obtain ⟨j, hj, heq⟩ := List.getElem_of_mem hmem
    have hin : (some (s.context[i].inputs[j]), j + 1) ∈ (s.context[i].inputs.map some).zipIdx 1 := by
      rw [List.mem_zipIdx_iff_le_and_getElem?_sub]
      exact ⟨by omega, by simp [hj]⟩
    rw [← horigins] at hin
    obtain ⟨edge, hedge, hpair⟩ := List.mem_map.1 hin
    have horigin := (congrArg Prod.fst hpair).trans (congrArg some heq)
    have hedge' : edge ∈ b.dag.inEdges n' := h.finished.inEdges_eq (h.finished.isOperation_lt ⟨_, hn'⟩) ▸ hedge
    have hmem' := (OperationDAG.mem_inEdges.1 hedge).1
    obtain ⟨htail, hsrc⟩ := nodeOrigin_eq_result hn hq (h.isSource hmem') horigin
    apply List.ne_nil_of_mem (a := edge)
    unfold edgesFrom
    rw [List.mem_filter, OperationDAG.mem_outEdges]
    exact ⟨⟨(OperationDAG.mem_inEdges.1 hedge').1, htail⟩, decide_eq_true hsrc⟩

/-- Where a result is written: to the last of the operands that are written with
it, or else to a value of its own if it is used. -/
theorem place_spec (h : IsGraphOf opPool operation statements s b outputs dag) {nodes : List Nat}
    {c : OperationDAGBehavior} (hc : IsScript dag nodes c) {n : Nat} (hn : n ∈ nodes) {step : SimulationStep}
    (hstep : c.stepAt n = some step) {q : Nat} (hq : step.op.isOutput q = true) :
    match (outputsFrom b outputs n q).getLast? with
    | some k => step.params (q - 1) = some (.ios k)
    | none =>
      edgesFrom b.dag n q = [] ∧ step.params (q - 1) = none ∨
        edgesFrom b.dag n q ≠ [] ∧ ∃ index, step.params (q - 1) = some (.value index) := by
  obtain ⟨step', hstep', hisStep⟩ := hc.step n hn
  obtain rfl := Option.some.inj (hstep.symm.trans hstep')
  have hcell := hisStep.output q hq
  have hlast := h.finished.getLast?_edgesFrom n q
  cases hout : (outputsFrom b outputs n q).getLast? with
  | some k =>
    rw [hout] at hlast
    obtain ⟨edge, hedge, hhead⟩ := hlast
    rw [hedge] at hcell
    unfold OperationDAGBehavior.IsOutputCell at hcell
    dsimp only at hcell
    rwa [hhead] at hcell
  | none =>
    rw [hout] at hlast
    dsimp only at hlast ⊢
    rw [hlast] at hcell
    cases hedges : edgesFrom b.dag n q with
    | nil =>
      rw [hedges] at hcell
      exact .inl ⟨rfl, hcell⟩
    | cons first rest =>
      refine .inr ⟨by simp, ?_⟩
      have hedge := List.getLast?_eq_some_getLast (show edgesFrom b.dag n q ≠ [] by rw [hedges]; simp)
      generalize (edgesFrom b.dag n q).getLast _ = edge at hedge
      rw [hedge] at hcell
      have hmem := (OperationDAG.mem_outEdges.1 (List.mem_filter.1 (List.mem_of_getLast? hedge)).1).1
      obtain ⟨-, ⟨op', hop', -⟩, -⟩ := h.tracks.wellBuilt.edge edge hmem
      unfold OperationDAGBehavior.IsOutputCell at hcell
      dsimp only at hcell
      rw [show dag.nodes[edge.head]? = some (.operation op') from h.finished.nodes ▸ getElem?_append_some hop'] at hcell
      obtain ⟨index, hindex, -⟩ := hcell
      exact ⟨index, hindex⟩

end IsGraphOf

end Tce.OSAL
