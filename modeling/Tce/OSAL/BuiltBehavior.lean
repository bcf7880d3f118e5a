import Tce.OSAL.BuiltScript

/-!
# The behavior of a built graph

The script of the behavior has a step for each execution, by their depths. It
runs to the end if results that are not read are written to operands.
-/

namespace Tce.OSAL

open Finished (edgesFrom outputsFrom)
open OperationDAGBehavior (IsConnected IsScript IsSimulable IsTopological HasPlaces IsPlace addStep)

/-! ## Names of operands -/

theorem ioName_injective : Function.Injective ioName := by
  intro k k' h
  unfold ioName at h
  have hdigits : Nat.toDigits 10 k = Nat.toDigits 10 k' := by
    apply @List.append_cancel_left Char ['I', 'O', '(']
    exact List.append_cancel_right h
  have := congrArg (Nat.ofDigitChars 10 · 0) hdigits
  simpa using this

/-- The last of sorted operands is the one whose name is not before another. -/
theorem getLast?_eq_some_iff {ks : List Nat} (hsorted : ks.Pairwise fun k k' => ioName k ≤ ioName k') {k : Nat} :
    ks.getLast? = some k ↔ k ∈ ks ∧ ∀ k' ∈ ks, ioName k' ≤ ioName k := by
  have hlast : ∀ {l}, ks.getLast? = some l → ∀ k' ∈ ks, ioName k' ≤ ioName l := by
    intro l hl k' hk'
    obtain ⟨rest, rfl⟩ := List.getLast?_eq_some_iff.1 hl
    cases List.mem_append.1 hk' with
    | inl hk' => exact (List.pairwise_append.1 hsorted).2.2 k' hk' l List.mem_cons_self
    | inr hk' =>
      rw [List.mem_singleton.1 hk']
  constructor
  · exact fun h => ⟨List.mem_of_getLast? h, hlast h⟩
  · rintro ⟨hk, hle⟩
    have hl := List.getLast?_eq_some_getLast (List.ne_nil_of_mem hk)
    rw [hl]
    congr 1
    exact ioName_injective (le_antisymm (hle _ (List.getLast_mem _)) (hlast hl k hk))

/-! ## Steps for operation nodes -/

/-- The nodes that there are steps for. -/
def operationNodes (dag : OperationDAG) (nodes : List Nat) : List Nat :=
  nodes.filter fun n => dag.nodes[n]?.any (·.isOperation)

theorem any_isOperation {nodes : List OperationDAGNode} {n : Nat} :
    nodes[n]?.any (·.isOperation) = true ↔ IsOperation nodes n := by
  unfold IsOperation
  cases nodes[n]? with
  | none => simp
  | some node => cases node <;> simp [OperationDAGNode.isOperation]

theorem mem_operationNodes {dag : OperationDAG} {nodes : List Nat} {n : Nat} :
    n ∈ operationNodes dag nodes ↔ n ∈ nodes ∧ IsOperation dag.nodes n := by
  unfold operationNodes
  rw [List.mem_filter, any_isOperation]

theorem foldl_addStep (dag : OperationDAG) (nodes : List Nat) (c : OperationDAGBehavior) :
    nodes.foldl (addStep dag) c = (operationNodes dag nodes).foldl (addStep dag) c := by
  unfold operationNodes
  rw [List.foldl_filter]
  apply List.foldl_ext
  intro c n _
  split
  · rfl
  · next hn => exact OperationDAGBehavior.addStep_of_not_operation (fun hop => hn (any_isOperation.2 hop)) c

theorem isTopological_operationNodes {dag : OperationDAG} {nodes : List Nat}
    (h : ∀ before n after, nodes = before ++ n :: after → ∀ m ∈ dag.predecessors n, m ∈ before) :
    IsTopological dag (operationNodes dag nodes) := by
  intro before n after heq m hm hop
  obtain ⟨l, r, rfl, rfl, hr⟩ := List.filter_eq_append_iff.1 heq
  obtain ⟨skipped, r, rfl, hnone, -, rfl⟩ := List.filter_eq_cons_iff.1 hr
  cases List.mem_append.1 (h (l ++ skipped) n r (by rw [List.append_assoc]) m hm) with
  | inl hl => exact mem_operationNodes.2 ⟨hl, hop⟩
  | inr hskipped => exact absurd (any_isOperation.2 hop) (hnone m hskipped)

variable {opPool : String → Option Operation} {operation : Operation} {statements : List Statement}
  {s : ExecutionState Origin (List OperationExecution)} {b : OperationDAGBuilder} {outputs : List Nat}
  {dag : OperationDAG} {nodes : List Nat} {c : OperationDAGBehavior}

namespace IsGraphOf

/-- A step writes an operand if it is the last that is written with its result. -/
theorem getLast?_outputsFrom (h : IsGraphOf opPool operation statements s b outputs dag) (hc : IsScript dag nodes c)
    {n : Nat} (hn : n ∈ nodes) {step : SimulationStep} (hstep : c.stepAt n = some step) {q : Nat}
    (hq : step.op.isOutput q = true) {k : Nat} :
    step.params (q - 1) = some (.ios k) ↔ (outputsFrom b outputs n q).getLast? = some k := by
  have hplace := h.place_spec hc hn hstep hq
  cases hlast : (outputsFrom b outputs n q).getLast? with
  | some k' =>
    rw [hlast] at hplace
    dsimp only at hplace
    rw [hplace, Option.some.injEq, Option.some.injEq, Cell.ios.injEq]
  | none =>
    rw [hlast] at hplace
    rcases hplace with ⟨-, hnone⟩ | ⟨-, index, hvalue⟩
    · rw [hnone]
      simp
    · rw [hvalue]
      simp

theorem mem_outputs_of_ios (h : IsGraphOf opPool operation statements s b outputs dag) (hc : IsScript dag nodes c)
    {n : Nat} (hn : n ∈ nodes) {step : SimulationStep} (hstep : c.stepAt n = some step) {q : Nat}
    (hq : step.op.isOutput q = true) {k : Nat} (hk : step.params (q - 1) = some (.ios k)) :
    k ∈ outputs ∧ OperationDAGBuilder.source b.variableBindings k = (n, q) := by
  have hmem := List.mem_of_getLast? ((h.getLast?_outputsFrom hc hn hstep hq).1 hk)
  unfold outputsFrom at hmem
  rwa [List.mem_filter, decide_eq_true_iff] at hmem

/-- The steps of the operation nodes can be simulated. -/
theorem isSimulable (h : IsGraphOf opPool operation statements s b outputs dag) {depth : Nat → Nat}
    (hdepth : Levels.IsDepth dag.predecessors depth) (t : Nat) :
    IsSimulable operation dag s.context (operationNodes dag (Levels.upTo dag.nodes.length depth t).flatten)
      ((operationNodes dag (Levels.upTo dag.nodes.length depth t).flatten).foldl (addStep dag)
        ⟨[], fun _ => 0, []⟩) := by
  have hnodup : (operationNodes dag (Levels.upTo dag.nodes.length depth t).flatten).Nodup :=
    (Levels.upTo_nodup t).filter _
  have htopological := isTopological_operationNodes fun _ _ _ heq =>
    Levels.upTo_ordered hdepth h.finished.predecessors_lt (t := t) heq
  have hscript := OperationDAGBehavior.isScript_foldl (fun n hn => by
    obtain ⟨op, hop⟩ := (mem_operationNodes.1 hn).2
    exact ⟨op, h.isConnected hop⟩) hnodup htopological
  generalize operationNodes dag (Levels.upTo dag.nodes.length depth t).flatten = nodes at *
  generalize nodes.foldl (addStep dag) ⟨[], fun _ => 0, []⟩ = c at *
  constructor
  · exact hscript
  · exact hnodup
  · exact htopological
  · exact fun n _ op hop => h.execution hop
  · intro e he op hop
    obtain ⟨node, hnode, hout⟩ := h.isSource he
    exact hout op (Option.some.inj (hnode.symm.trans hop))
  · intro e he
    rcases h.finished.mem_edges he with hmem | ⟨io, hio, rfl⟩
    · obtain ⟨-, ⟨op, hop, -⟩, -⟩ := h.tracks.wellBuilt.edge e hmem
      exact .inr ((h.finished.isOperation_iff _).2 ⟨op, hop⟩)
    · exact .inl ⟨io.1, (h.finished.outputTerminal hio).2.2⟩
  · intro n hn step hstep q k hq hk e he hterminal
    have hread := ((h.mem_outputs k).1 (h.mem_outputs_of_ios hscript hn hstep hq hk).1).2
    rw [h.finished.node_eq (h.finished.tail_lt he)] at hterminal
    have := (h.terminal k).1 (List.mem_of_getElem? hterminal)
    rw [hread] at this
    cases this
  · intro n hn n' hn' step step' hstep hstep' q q' k hq hq' hk hk'
    have hsource := (h.mem_outputs_of_ios hscript hn hstep hq hk).2
    have hsource' := (h.mem_outputs_of_ios hscript hn' hstep' hq' hk').2
    exact Prod.ext_iff.1 (hsource.symm.trans hsource')

/-! ## Results that are kept -/

/-- The last operand that is written with a result is the last by name. -/
theorem ios_iff (h : IsGraphOf opPool operation statements s b outputs dag) (hc : IsScript dag nodes c) {n : Nat}
    (hn : n ∈ nodes) {step : SimulationStep} (hstep : c.stepAt n = some step) {q : Nat}
    (hq : step.op.isOutput q = true) {k : Nat} : step.params (q - 1) = some (.ios k) ↔
      IsWritten opPool statements s k (executionOf dag.nodes n) (q - step.op.numberOfInputs - 1) ∧
      ∀ k', IsWritten opPool statements s k' (executionOf dag.nodes n) (q - step.op.numberOfInputs - 1) →
        ioName k' ≤ ioName k := by
  obtain ⟨step', hstep', hisStep⟩ := hc.step n hn
  obtain rfl := Option.some.inj (hstep.symm.trans hstep')
  have hsorted : (outputsFrom b outputs n q).Pairwise fun k k' => ioName k ≤ ioName k' := h.sorted.filter _
  rw [h.getLast?_outputsFrom hc hn hstep hq, getLast?_eq_some_iff hsorted]
  simp only [h.mem_outputsFrom hisStep.op hq]

/-- Results that an operation reads and results that are written have places. -/
theorem isPlace_iff (h : IsGraphOf opPool operation statements s b outputs dag) (hc : IsScript dag nodes c) {n : Nat}
    (hn : n ∈ nodes) {step : SimulationStep} (hstep : c.stepAt n = some step) {q : Nat}
    (hq : step.op.isOutput q = true) : IsPlace operation (step.params (q - 1)) ↔
      ((∃ e ∈ s.context, .result (executionOf dag.nodes n) (q - step.op.numberOfInputs - 1) ∈ e.inputs) ∨
        ∃ k, IsWritten opPool statements s k (executionOf dag.nodes n) (q - step.op.numberOfInputs - 1)) ∧
      ∀ k, step.params (q - 1) = some (.ios k) → 1 ≤ k ∧ k ≤ operation.operandCount := by
  obtain ⟨step', hstep', hisStep⟩ := hc.step n hn
  obtain rfl := Option.some.inj (hstep.symm.trans hstep')
  have hplace := h.place_spec hc hn hstep hq
  constructor
  · rintro ⟨cell, hcell, hios⟩
    refine ⟨?_, fun k hk => hios k (Option.some.inj (hcell.symm.trans hk))⟩
    cases cell with
    | ios k => exact .inr ⟨k, ((h.ios_iff hc hn hstep hq).1 hcell).1⟩
    | value index =>
      cases hlast : (outputsFrom b outputs n q).getLast? with
      | some k =>
        rw [hlast] at hplace
        exact .inr ⟨k, (h.mem_outputsFrom hisStep.op hq).1 (List.mem_of_getLast? hlast)⟩
      | none =>
        rw [hlast] at hplace
        rcases hplace with ⟨-, hnone⟩ | ⟨hne, -⟩
        · rw [hnone] at hcell
          cases hcell
        · exact .inl ((h.edgesFrom_ne_nil hisStep.op hq).1 hne)
  · rintro ⟨hused, hios⟩
    cases hlast : (outputsFrom b outputs n q).getLast? with
    | some k =>
      rw [hlast] at hplace
      refine ⟨_, hplace, fun k' hk' => hios k' (hplace.trans (congrArg some hk'))⟩
    | none =>
      rw [hlast] at hplace
      rcases hplace with ⟨hnil, -⟩ | ⟨-, index, hvalue⟩
      · exfalso
        cases hused with
        | inl hread => exact (h.edgesFrom_ne_nil hisStep.op hq).2 hread hnil
        | inr hwritten =>
          obtain ⟨k, hk⟩ := hwritten
          have hmem := (h.mem_outputsFrom hisStep.op hq).2 hk
          rw [List.getLast?_eq_none_iff.1 hlast] at hmem
          cases hmem
      · exact ⟨_, hvalue, fun k hk => by cases hk⟩

/-! ## The order of the executions -/

end IsGraphOf

theorem nodup_order (hsimulable : IsSimulable operation dag s.context nodes c) :
    (nodes.map (executionOf dag.nodes)).Nodup := by
  apply List.Nodup.map_on ?_ hsimulable.nodup
  intro m hm n hn heq
  obtain ⟨step, -, hm⟩ := hsimulable.script.step m hm
  obtain ⟨step', -, hn⟩ := hsimulable.script.step n hn
  exact executionOf_inj ⟨_, hm.op⟩ ⟨_, hn.op⟩ heq

/-- An execution comes after those whose results it reads. -/
theorem order_ordered {V C : Type} {m : Machine V C} (hm : m.Lawful) (operands : Nat → V)
    (hsimulable : IsSimulable operation dag s.context nodes c) :
    (dataflow m operands hm s.context).Ordered (nodes.map (executionOf dag.nodes)) := by
  intro before i after heq j hj
  obtain ⟨l, r, hnodes, rfl, hr⟩ := List.map_eq_append_iff.1 heq
  obtain ⟨n, r, rfl, rfl, rfl⟩ := List.map_eq_cons_iff.1 hr
  have hn : n ∈ nodes := hnodes ▸ List.mem_append_right _ List.mem_cons_self
  obtain ⟨step, -, hisStep⟩ := hsimulable.script.step n hn
  obtain ⟨e, he, -, -, horigins⟩ := hsimulable.operation n hn step.op hisStep.op
  obtain ⟨e', he', o, ho, hoj⟩ := dataflow_reads.1 hj
  obtain rfl := Option.some.inj (he.symm.trans he')
  -- the edge that the input comes from
  have hmem : some o ∈ (inputOrigins operation dag n).map Prod.fst := by
    rw [horigins, List.zipIdx_map_fst]
    exact List.mem_map_of_mem ho
  obtain ⟨pair, hpair, hfst⟩ := List.mem_map.1 hmem
  obtain ⟨edge, hedge, rfl⟩ := List.mem_map.1 hpair
  dsimp only at hfst
  have htail : IsOperation dag.nodes edge.tail ∧ executionOf dag.nodes edge.tail = j := by
    unfold nodeOrigin at hfst
    split at hfst
    · obtain ⟨-, heq⟩ := Option.ite_none_right_eq_some.1 hfst
      cases heq
      cases hoj
    · cases hfst
      cases hoj
    · next op' hop' =>
      cases hfst
      cases hoj
      exact ⟨⟨op', hop'⟩, rfl⟩
    · cases hfst
  obtain ⟨hmem, hhead⟩ := OperationDAG.mem_inEdges.1 hedge
  have hbefore := hsimulable.topological l n r hnodes edge.tail
    (OperationDAG.mem_predecessors.2 ⟨edge, hmem, rfl, hhead⟩) htail.1
  exact htail.2 ▸ List.mem_map_of_mem hbefore

/-- Whether an execution uses the context. -/
def usesContext (executions : List OperationExecution) (i : Nat) : Bool :=
  (executions[i]?.map fun e => e.op.usesContext).getD false

/-- Executions that use the context come after the less nested of them. -/
def IsContextOrdered (executions : List OperationExecution) : Prop :=
  ∀ i i', i < i' → i' < executions.length → usesContext executions i = true → usesContext executions i' = true →
    (depths executions).getD i 0 ≤ (depths executions).getD i' 0

theorem map_executionOf (nodes : List OperationDAGNode) :
    ((List.range nodes.length).filter fun n => nodes[n]?.any (·.isOperation)).map (executionOf nodes) =
      List.range (nodes.countP (·.isOperation)) := by
  induction nodes using List.reverseRecOn with
  | nil => rfl
  | append_singleton nodes node ih =>
    have hold : ((List.range nodes.length).filter fun n => (nodes ++ [node])[n]?.any (·.isOperation)).map
        (executionOf (nodes ++ [node])) = List.range (nodes.countP (·.isOperation)) := by
      rw [← ih]
      have hfilter : ((List.range nodes.length).filter fun n => (nodes ++ [node])[n]?.any (·.isOperation)) =
          (List.range nodes.length).filter fun n => nodes[n]?.any (·.isOperation) := by
        apply List.filter_congr
        intro n hn
        rw [List.getElem?_append_left (List.mem_range.1 hn)]
      rw [hfilter]
      apply List.map_congr_left
      intro n hn
      exact executionOf_append (Nat.le_of_lt (List.mem_range.1 (List.mem_filter.1 hn).1))
    rw [List.length_append, List.length_singleton, List.range_succ, List.filter_append, List.map_append, hold,
      List.countP_append, List.countP_singleton]
    by_cases hnode : node.isOperation = true
    · rw [List.filter_cons_of_pos (by simpa using hnode), if_pos hnode, List.range_succ, List.filter_nil, List.map_cons,
        executionOf_append (Nat.le_refl _), executionOf_length]
      rfl
    · rw [List.filter_cons_of_neg (by simpa using hnode), if_neg hnode]
      simp

namespace IsGraphOf

theorem countP_nodes (h : IsGraphOf opPool operation statements s b outputs dag) :
    dag.nodes.countP (·.isOperation) = s.context.length := by
  rw [h.finished.nodes, List.countP_append, h.tracks.count, Nat.add_eq_left, List.countP_eq_zero]
  intro node hnode
  obtain ⟨k, -, rfl⟩ := List.mem_map.1 hnode
  exact Bool.false_ne_true

/-- By levels, executions that use the context keep their order if they were put
in it by their depths. -/
theorem filter_order (h : IsGraphOf opPool operation statements s b outputs dag) {depth : Nat → Nat}
    (hdepth : Levels.IsDepth dag.predecessors depth) {t : Nat} (ht : ∀ n < dag.nodes.length, depth n < t)
    (hordered : IsContextOrdered s.context) :
    ((operationNodes dag (Levels.upTo dag.nodes.length depth t).flatten).map (executionOf dag.nodes)).filter
      (usesContext s.context) = (List.range s.context.length).filter (usesContext s.context) := by
  have hsplit : ∀ nodes : List Nat, ((operationNodes dag nodes).map (executionOf dag.nodes)).filter
      (usesContext s.context) = (nodes.filter fun n =>
        usesContext s.context (executionOf dag.nodes n) && dag.nodes[n]?.any (·.isOperation)).map
        (executionOf dag.nodes) := by
    intro nodes
    unfold operationNodes
    rw [List.filter_map, List.filter_filter]
    rfl
  rw [← h.countP_nodes, ← map_executionOf dag.nodes]
  change _ = ((operationNodes dag (List.range dag.nodes.length)).map _).filter _
  rw [hsplit, hsplit]
  congr 1
  rw [Levels.filter_upTo_iff ht]
  intro a a' hlt _ ha ha'
  rw [Bool.and_eq_true, any_isOperation] at ha ha'
  rw [h.depth_eq hdepth ha.2, h.depth_eq hdepth ha'.2]
  apply hordered _ _ (executionOf_lt ha.2 hlt) ?_ ha.1 ha'.1
  obtain ⟨op, hop⟩ := ha'.2
  obtain ⟨e, he, -⟩ := h.execution hop
  exact (List.getElem?_eq_some_iff.1 he).1

end IsGraphOf

/-! ## The behavior -/

/-- A script with a step for each operation node, by levels. -/
structure IsBehaviorOf (operation : Operation) (dag : OperationDAG)
    (s : ExecutionState Origin (List OperationExecution)) (nodes : List Nat) (c : OperationDAGBehavior) : Prop where
  simulable : IsSimulable operation dag s.context nodes c
  mem : ∀ n, n ∈ nodes ↔ IsOperation dag.nodes n
  order : ∀ i, i ∈ nodes.map (executionOf dag.nodes) ↔ i < s.context.length
  levels : (nodes.map (executionOf dag.nodes)).Pairwise fun i i' =>
    (depths s.context).getD i 0 ≤ (depths s.context).getD i' 0
  context : IsContextOrdered s.context → (nodes.map (executionOf dag.nodes)).filter (usesContext s.context) =
    (List.range s.context.length).filter (usesContext s.context)

/-- The levels of a built graph are computed, and there is a behavior. -/
theorem IsGraphOf.exists_behavior (h : IsGraphOf opPool operation statements s b outputs dag) :
    ∃ nodes c, OperationDAGBehavior.new dag = some c ∧ IsBehaviorOf operation dag s nodes c := by
  obtain ⟨depth, hdepth⟩ := h.finished.exists_depth
  obtain ⟨t, hcompute, ht⟩ := Levels.compute_eq hdepth h.finished.predecessors_lt
  have hmem : ∀ n, n ∈ operationNodes dag (Levels.upTo dag.nodes.length depth t).flatten ↔ IsOperation dag.nodes n := by
    intro n
    rw [mem_operationNodes, Levels.mem_upTo, and_iff_right_iff_imp]
    rintro ⟨op, hop⟩
    have hlt := (List.getElem?_eq_some_iff.1 hop).1
    exact ⟨hlt, ht n hlt⟩
  refine ⟨_, _, ?_, h.isSimulable hdepth t, hmem, fun i => ?_, ?_, h.filter_order hdepth ht⟩
  · unfold OperationDAGBehavior.new OperationDAGBehavior.nodeLevels
    rw [hcompute, Option.map_some, foldl_addStep]
  · rw [List.mem_map]
    constructor
    · rintro ⟨n, hn, rfl⟩
      obtain ⟨op, hop⟩ := (hmem n).1 hn
      obtain ⟨e, he, -⟩ := h.execution hop
      exact (List.getElem?_eq_some_iff.1 he).1
    · intro hi
      obtain ⟨n, hn, rfl⟩ := h.exists_node (List.getElem?_eq_getElem hi)
      exact ⟨n, (hmem n).2 ⟨_, hn⟩, rfl⟩
  · rw [List.pairwise_map]
    have hsorted : (operationNodes dag (Levels.upTo dag.nodes.length depth t).flatten).Pairwise
        (Levels.Before depth) := (Levels.upTo_sorted _ _ t).filter _
    apply hsorted.imp_of_mem
    intro n n' hn hn' hbefore
    rw [← h.depth_eq hdepth ((hmem n).1 hn), ← h.depth_eq hdepth ((hmem n').1 hn')]
    unfold Levels.Before at hbefore
    omega

end Tce.OSAL
