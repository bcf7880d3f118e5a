import Tce.OSAL.BuilderTerminals
import Tce.OSAL.SymbolicExecution

/-!
# Graphs and symbolic execution

The builder binds each variable to the node that its value comes from in the
symbolic execution, and connects operation nodes to where their inputs come from.
-/

namespace Tce.OSAL

/-! ## Origins of nodes -/

/-- How many operations were executed before the one of a node. -/
def executionOf (nodes : List OperationDAGNode) (n : Nat) : Nat := (nodes.take n).countP (·.isOperation)

/-- Where the value of an operand of a node comes from. -/
def nodeOrigin (operation : Operation) (nodes : List OperationDAGNode) (n operand : Nat) : Option Origin :=
  match nodes[n]? with
  | some (.terminal k) => if 1 ≤ k ∧ k ≤ operation.operandCount then some (.operand k) else none
  | some (.constant value) => some (.constant value)
  | some (.operation op) => some (.result (executionOf nodes n) (operand - op.numberOfInputs - 1))
  | none => none

def bindingOrigin (operation : Operation) (nodes : List OperationDAGNode) (binding : VariableBinding) : Option Origin :=
  binding.node.bind fun n => nodeOrigin operation nodes n binding.operand

/-- Where the inputs of a node come from. -/
def inputOrigins (operation : Operation) (dag : OperationDAG) (n : Nat) : List (Option Origin × Nat) :=
  (dag.inEdges n).map fun e => (nodeOrigin operation dag.nodes e.tail e.srcOperand, e.dstOperand)

theorem executionOf_append {nodes more : List OperationDAGNode} {n : Nat} (hn : n ≤ nodes.length) :
    executionOf (nodes ++ more) n = executionOf nodes n := by
  unfold executionOf
  rw [List.take_append_of_le_length hn]

theorem executionOf_length {nodes : List OperationDAGNode} :
    executionOf nodes nodes.length = nodes.countP (·.isOperation) := by
  unfold executionOf
  rw [List.take_length]

theorem executionOf_mono (nodes : List OperationDAGNode) {m n : Nat} (hmn : m ≤ n) :
    executionOf nodes m ≤ executionOf nodes n := (List.take_sublist_take_left hmn).countP_le

theorem executionOf_lt {nodes : List OperationDAGNode} {m n : Nat} (hm : IsOperation nodes m) (hmn : m < n) :
    executionOf nodes m < executionOf nodes n := by
  obtain ⟨op, hop⟩ := hm
  have hsucc : executionOf nodes (m + 1) = executionOf nodes m + 1 := by
    unfold executionOf
    rw [List.take_add_one, hop, List.countP_append]
    rfl
  have := executionOf_mono nodes (show m + 1 ≤ n from hmn)
  omega

theorem executionOf_inj {nodes : List OperationDAGNode} {m n : Nat} (hm : IsOperation nodes m)
    (hn : IsOperation nodes n) (h : executionOf nodes m = executionOf nodes n) : m = n := by
  rcases Nat.lt_trichotomy m n with hlt | heq | hlt
  · have := executionOf_lt hm hlt
    omega
  · exact heq
  · have := executionOf_lt hn hlt
    omega

theorem nodeOrigin_append {operation : Operation} {nodes more : List OperationDAGNode} {n operand : Nat}
    (hn : n < nodes.length) : nodeOrigin operation (nodes ++ more) n operand = nodeOrigin operation nodes n operand := by
  unfold nodeOrigin
  rw [List.getElem?_append_left hn, executionOf_append (Nat.le_of_lt hn)]

namespace OperationDAGBuilder

/-- Variables are bound to where their values come from, and so are the inputs
of the operations that were executed. -/
structure Represents (operation : Operation) (b : OperationDAGBuilder)
    (s : ExecutionState Origin (List OperationExecution)) : Prop where
  values : ∀ x, s.values x =
    match b.variableBindings x with
    | some binding => bindingOrigin operation b.dag.nodes binding
    | none => (ExecutionState.initial operation Origin.operand ([] : List OperationExecution)).values x
  executions : ∀ n op, b.dag.nodes[n]? = some (.operation op) → executionOf b.dag.nodes n < s.context.length →
    ∃ e, s.context[executionOf b.dag.nodes n]? = some e ∧ e.op = op ∧ e.inputs.length = op.numberOfInputs ∧
      inputOrigins operation b.dag n = (e.inputs.map some).zipIdx 1

variable {operation : Operation} {s : ExecutionState Origin (List OperationExecution)}

theorem inputOrigins_addNode {b : OperationDAGBuilder} {current : Option Nat} (hb : b.WellBuilt current)
    (node : OperationDAGNode) (n : Nat) :
    inputOrigins operation (b.addNode node).dag n = inputOrigins operation b.dag n := by
  apply List.map_congr_left
  intro e he
  have := (hb.edge e (OperationDAG.mem_inEdges.1 he).1).1.lt
  change (nodeOrigin operation (b.dag.nodes ++ [node]) e.tail e.srcOperand, _) = _
  rw [nodeOrigin_append this]

/-- A node is added that is not for one of the operations that were executed. -/
theorem Represents.addNode {b : OperationDAGBuilder} {current : Option Nat} (hb : b.WellBuilt current)
    (h : b.Represents operation s) (node : OperationDAGNode)
    (hnode : node.isOperation = true → s.context.length ≤ executionOf b.dag.nodes b.dag.nodes.length) :
    (b.addNode node).Represents operation s := by
  constructor
  · intro x
    rw [h.values x]
    change _ = match b.variableBindings x with
      | some binding => bindingOrigin operation (b.dag.nodes ++ [node]) binding
      | none => _
    cases hx : b.variableBindings x with
    | none => rfl
    | some binding =>
      dsimp only [bindingOrigin]
      cases hn : binding.node with
      | none => rfl
      | some n => exact (nodeOrigin_append (hb.binding x binding n hx hn).1.lt).symm
  · intro n op hop hlt
    rw [inputOrigins_addNode hb]
    change (b.dag.nodes ++ [node])[n]? = _ at hop
    change executionOf (b.dag.nodes ++ [node]) n < _ at hlt
    change ∃ e, s.context[executionOf (b.dag.nodes ++ [node]) n]? = _ ∧ _
    by_cases hn : n < b.dag.nodes.length
    · rw [executionOf_append (Nat.le_of_lt hn)] at hlt ⊢
      rw [List.getElem?_append_left hn] at hop
      exact h.executions n op hop hlt
    · have hlen := (List.getElem?_eq_some_iff.1 hop).1
      rw [List.length_append, List.length_singleton] at hlen
      obtain rfl : n = b.dag.nodes.length := by omega
      rw [List.getElem?_concat_length] at hop
      cases hop
      rw [executionOf_append (Nat.le_refl _)] at hlt
      exact absurd (hnode rfl) (Nat.not_le_of_lt hlt)

theorem Represents.of_eq {b b' : OperationDAGBuilder} (h : b.Represents operation s) (hdag : b'.dag = b.dag)
    (hbindings : b'.variableBindings = b.variableBindings) : b'.Represents operation s := by
  constructor
  · rw [hdag, hbindings]
    exact h.values
  · rw [hdag]
    exact h.executions

theorem Represents.bind {b : OperationDAGBuilder} (h : b.Represents operation s) (x : Variable)
    (binding : VariableBinding) :
    (b.bind x binding).Represents operation (s.assign (.var x) (bindingOrigin operation b.dag.nodes binding)) := by
  refine ⟨fun y => ?_, h.executions⟩
  change Function.update s.values x _ y = match Function.update b.variableBindings x (some binding) y with
    | some binding => bindingOrigin operation b.dag.nodes binding
    | none => _
  by_cases hyx : y = x
  · subst hyx
    rw [Function.update_self, Function.update_self]
  · rw [Function.update_of_ne hyx, Function.update_of_ne hyx]
    exact h.values y

/-- Reading a variable changes nothing, and its binding is where its value comes from. -/
theorem Represents.getBinding {b b' : OperationDAGBuilder} {current : Option Nat} (hb : b.WellBuilt current)
    (h : b.Represents operation s) {p : Parameter} {binding : VariableBinding}
    (hp : b.getBinding p = .ok (b', binding)) :
    b'.Represents operation s ∧ bindingOrigin operation b'.dag.nodes binding = s.value symbolic p := by
  rcases getBinding_ok hp with ⟨rfl, x, rfl, hx⟩ | ⟨rfl, k, rfl, hk, rfl⟩ | ⟨rfl, v, rfl, hv⟩ | ⟨rfl, v, rfl, hv, rfl⟩
  · refine ⟨h, ?_⟩
    change _ = s.values x
    rw [h.values x, hx]
  · have hadd := h.addNode hb (.terminal k) fun hop => by cases hop
    have horigin : bindingOrigin operation (b.dag.nodes ++ [.terminal k]) ⟨some b.dag.nodes.length, 1⟩ =
        s.values (.io k) := by
      rw [h.values, hk]
      dsimp only [bindingOrigin, Option.bind_some, nodeOrigin]
      rw [List.getElem?_concat_length]
      rfl
    refine ⟨?_, horigin⟩
    have hbind := hadd.bind (.io k) ⟨some b.dag.nodes.length, 1⟩
    have hsame : s.assign (.var (.io k))
        (bindingOrigin operation (b.addNode (.terminal k)).dag.nodes ⟨some b.dag.nodes.length, 1⟩) = s := by
      change { s with values := Function.update s.values (.io k) (bindingOrigin operation (b.dag.nodes ++ _) _) } = s
      rw [horigin, Function.update_eq_self]
    rw [hsame] at hbind
    exact hbind.of_eq rfl rfl
  · obtain ⟨n, hn, hconstant⟩ := hb.constant v binding hv
    refine ⟨h, ?_⟩
    unfold bindingOrigin nodeOrigin
    rw [hn, Option.bind_some, hconstant]
    rfl
  · refine ⟨(h.addNode hb (.constant v) fun hop => by cases hop).of_eq rfl rfl, ?_⟩
    dsimp only [bindingOrigin, Option.bind_some, nodeOrigin, OperationDAGBuilder.addNode]
    rw [List.getElem?_concat_length]
    rfl

theorem getBinding_nodes {b b' : OperationDAGBuilder} {p : Parameter} {binding : VariableBinding}
    (h : b.getBinding p = .ok (b', binding)) : b'.dag.edges = b.dag.edges ∧
      ∃ more, b'.dag.nodes = b.dag.nodes ++ more ∧ more.countP (·.isOperation) = 0 := by
  rcases getBinding_ok h with ⟨rfl, -⟩ | ⟨-, k, -, -, rfl⟩ | ⟨rfl, -⟩ | ⟨-, v, -, -, rfl⟩
  · exact ⟨rfl, [], (List.append_nil _).symm, rfl⟩
  · exact ⟨rfl, [.terminal k], rfl, rfl⟩
  · exact ⟨rfl, [], (List.append_nil _).symm, rfl⟩
  · exact ⟨rfl, [.constant v], rfl, rfl⟩

/-- The operation that is being connected, with the inputs it has so far. -/
structure Connecting (operation : Operation) (s : ExecutionState Origin (List OperationExecution)) (op : Operation)
    (n : Nat) (inputs : List (Option Origin × Nat)) (b : OperationDAGBuilder) : Prop where
  represents : b.Represents operation s
  wellBuilt : b.WellBuilt (some n)
  node : b.dag.nodes[n]? = some (.operation op)
  execution : executionOf b.dag.nodes n = s.context.length
  count : b.dag.nodes.countP (·.isOperation) = s.context.length + 1
  inputs : inputOrigins operation b.dag n = inputs

theorem Connecting.connectInput {op : Operation} {n : Nat} {inputs : List (Option Origin × Nat)}
    {b b' : OperationDAGBuilder} (h : Connecting operation s op n inputs b) {p : Parameter} {i : Nat}
    (hi : op.isInput i = true) (hp : connectOperandToNode op n b (p, i) = .ok b') :
    Connecting operation s op n (inputs ++ [(s.value symbolic p, i)]) b' := by
  obtain ⟨hwell, hnode⟩ := h.wellBuilt.connectInput h.node hi hp
  rcases connectOperandToNode_ok hp with ⟨-, b₁, binding, m, h₁, hm, rfl⟩ | ⟨hinput, -⟩
  swap
  · rw [hi] at hinput
    cases hinput
  obtain ⟨hrepresents, horigin⟩ := h.represents.getBinding h.wellBuilt h₁
  obtain ⟨hedges, more, hnodes, hmore⟩ := getBinding_nodes h₁
  have hn : n < b.dag.nodes.length := (List.getElem?_eq_some_iff.1 h.node).1
  have hexecution : executionOf b₁.dag.nodes n = s.context.length := by
    rw [hnodes, executionOf_append (Nat.le_of_lt hn)]
    exact h.execution
  -- the edge is to no other node
  have hother : ∀ k, k ≠ n → inputOrigins operation (b₁.connectNodes ⟨m, n, binding.operand, i⟩).dag k =
      inputOrigins operation b₁.dag k := by
    intro k hk
    unfold inputOrigins OperationDAG.inEdges
    change ((b₁.dag.edges ++ [_]).filter _).map _ = _
    rw [List.filter_append, List.filter_cons_of_neg (by simpa using hk.symm)]
    exact congrArg _ (List.append_nil _)
  refine ⟨⟨hrepresents.values, fun k op' hop' hlt => ?_⟩, hwell, hnode, hexecution, ?_, ?_⟩
  · have hne : k ≠ n := by
      rintro rfl
      change executionOf b₁.dag.nodes k < _ at hlt
      omega
    rw [hother k hne]
    exact hrepresents.executions k op' hop' hlt
  · change b₁.dag.nodes.countP _ = _
    rw [hnodes, List.countP_append, hmore]
    exact h.count
  · have hold : inputOrigins operation b₁.dag n = inputs := by
      rw [← h.inputs]
      unfold inputOrigins OperationDAG.inEdges
      rw [hedges]
      apply List.map_congr_left
      intro e he
      rw [hnodes, nodeOrigin_append (h.wellBuilt.edge e (List.mem_filter.1 he).1).1.lt]
    have hbinding : bindingOrigin operation b₁.dag.nodes binding = nodeOrigin operation b₁.dag.nodes m binding.operand := by
      unfold bindingOrigin
      rw [hm]
      rfl
    rw [← hold, ← horigin, hbinding]
    unfold inputOrigins OperationDAG.inEdges
    change ((b₁.dag.edges ++ [_]).filter _).map _ = _
    rw [List.filter_append, List.filter_cons_of_pos (by simp), List.map_append]
    rfl

theorem Connecting.connectInputs {op : Operation} {n : Nat} {ps : List (Parameter × Nat)} :
    ∀ {inputs : List (Option Origin × Nat)} {b b' : OperationDAGBuilder}, Connecting operation s op n inputs b →
      (∀ p ∈ ps, op.isInput p.2 = true) → ps.foldlM (connectOperandToNode op n) b = .ok b' →
      Connecting operation s op n (inputs ++ ps.map fun p => (s.value symbolic p.1, p.2)) b' := by
  induction ps with
  | nil =>
    intro inputs b b' hb _ h
    cases h
    rwa [List.map_nil, List.append_nil]
  | cons p ps ih =>
    intro inputs b b' hb hps h
    obtain ⟨hp, hps⟩ := List.forall_mem_cons.1 hps
    obtain ⟨b₁, h₁, h⟩ := bind_eq_ok.1 (List.foldlM_cons.symm.trans h)
    have := ih (hb.connectInput hp h₁) hps h
    rwa [List.append_assoc] at this

/-- All inputs are connected and the operation is executed. -/
theorem Connecting.execute {op : Operation} {n : Nat} {inputs : List Origin} {b : OperationDAGBuilder}
    (h : Connecting operation s op n ((inputs.map some).zipIdx 1) b) (hlength : inputs.length = op.numberOfInputs) :
    b.Represents operation { s with context := s.context ++ [⟨op, inputs⟩] } := by
  refine ⟨h.represents.values, fun k op' hop' hlt => ?_⟩
  change executionOf b.dag.nodes k < (s.context ++ [_]).length at hlt
  rw [List.length_append, List.length_singleton] at hlt
  change ∃ e, (s.context ++ [_])[executionOf b.dag.nodes k]? = _ ∧ _
  by_cases hk : executionOf b.dag.nodes k < s.context.length
  · rw [List.getElem?_append_left hk]
    exact h.represents.executions k op' hop' hk
  · obtain rfl : k = n := by
      apply executionOf_inj ⟨op', hop'⟩ ⟨op, h.node⟩
      rw [h.execution]
      omega
    rw [h.execution, List.getElem?_concat_length]
    have heq := h.node.symm.trans hop'
    cases heq
    exact ⟨_, rfl, rfl, hlength, h.inputs⟩

/-- The results are assigned to their variables. -/
theorem represents_assignOutputs {op : Operation} {n execution : Nat} {ps : List Parameter} : ∀ {j : Nat}
    {b b' : OperationDAGBuilder} {s : ExecutionState Origin (List OperationExecution)}, b.Represents operation s →
    b.dag.nodes[n]? = some (.operation op) → executionOf b.dag.nodes n = execution →
    (ps.zipIdx (op.numberOfInputs + 1 + j)).foldlM (connectOperandToNode op n) b = .ok b' →
    b'.dag = b.dag ∧ b'.Represents operation
      (((ps.zipIdx j).map fun p => (p.1, Origin.result execution p.2)).foldl ExecutionState.assignResult s) := by
  induction ps with
  | nil =>
    intro j b b' s hb _ _ h
    cases h
    exact ⟨rfl, hb⟩
  | cons p ps ih =>
    intro j b b' s hb hop hexecution h
    rw [List.zipIdx_cons, List.foldlM_cons] at h
    obtain ⟨b₁, h₁, hrest⟩ := bind_eq_ok.1 h
    rcases connectOperandToNode_ok h₁ with ⟨hinput, -⟩ | ⟨-, -, h₁⟩
    · unfold Operation.isInput at hinput
      rw [Bool.and_eq_true, decide_eq_true_iff, decide_eq_true_iff] at hinput
      omega
    obtain ⟨b₂, x, h₂, rfl⟩ := assignResult_ok h₁
    obtain ⟨rfl, hdag, hbindings, -⟩ := getVariableName_ok h₂
    have hbind := (hb.of_eq hdag hbindings).bind x ⟨some n, op.numberOfInputs + 1 + j⟩
    have horigin : bindingOrigin operation b₂.dag.nodes ⟨some n, op.numberOfInputs + 1 + j⟩ =
        some (.result execution j) := by
      dsimp only [bindingOrigin, Option.bind_some, nodeOrigin]
      rw [hdag, hop, hexecution]
      dsimp only
      congr 2
      omega
    rw [horigin] at hbind
    have hnode : (b₂.bind x ⟨some n, op.numberOfInputs + 1 + j⟩).dag = b.dag := hdag
    obtain ⟨hdag', hrepresents⟩ := ih (j := j + 1) hbind (by rw [hnode]; exact hop) (by rw [hnode]; exact hexecution) hrest
    exact ⟨hdag'.trans hnode, hrepresents⟩

theorem zip_range_map {α β : Type} (as : List α) (f : Nat → β) :
    as.zip ((List.range as.length).map f) = as.zipIdx.map fun p => (p.1, f p.2) := by
  rw [List.zipIdx_eq_zip_range', ← List.range_eq_range', List.zip_map_right]
  rfl

/-- The builder and the symbolic execution of the statements so far. -/
structure Tracks (operation : Operation) (b : OperationDAGBuilder)
    (s : ExecutionState Origin (List OperationExecution)) : Prop where
  represents : b.Represents operation s
  wellBuilt : b.WellBuilt none
  recorded : IsRecorded s
  count : b.dag.nodes.countP (·.isOperation) = s.context.length

variable {opPool : String → Option Operation}

theorem Represents.parseNode {b b' : OperationDAGBuilder} {statement : Statement}
    {s' : ExecutionState Origin (List OperationExecution)} (h : b.Tracks operation s)
    (hb' : b.parseNode opPool statement = .ok b') (hs' : s.executeStatement symbolic opPool statement = some s') :
    b'.Represents operation s' ∧ b'.dag.nodes.countP (·.isOperation) = s'.context.length := by
  cases statement with
  | declaration names =>
    cases hs'
    have hfold : ∀ (names : List String) {b b' : OperationDAGBuilder}
        {s : ExecutionState Origin (List OperationExecution)}, b.Represents operation s →
        names.foldlM declareVariable b = .ok b' →
        b'.Represents operation (names.foldl ExecutionState.declare s) ∧ b'.dag = b.dag ∧
          (names.foldl ExecutionState.declare s).context = s.context := by
      intro names
      induction names with
      | nil =>
        intro b b' s hb h
        cases h
        exact ⟨hb, rfl, rfl⟩
      | cons name names ih =>
        intro b b' s hb h
        obtain ⟨b₁, h₁, h⟩ := bind_eq_ok.1 (List.foldlM_cons.symm.trans h)
        obtain ⟨-, rfl⟩ := declareVariable_ok h₁
        obtain ⟨hrep, hdag, hcontext⟩ := ih (hb.bind (.identifier name) ⟨none, 0⟩) h
        exact ⟨hrep, hdag, hcontext⟩
    obtain ⟨hrep, hdag, hcontext⟩ := hfold names h.represents hb'
    refine ⟨hrep, ?_⟩
    rw [hdag, hcontext]
    exact h.count
  | assignment dst src =>
    cases hs'
    obtain ⟨b₁, b₂, x, binding, h₁, h₂, rfl⟩ := assignVariable_ok hb'
    obtain ⟨rfl, hdag, hbindings, -⟩ := getVariableName_ok h₁
    obtain ⟨hrep, horigin⟩ := (h.represents.of_eq hdag hbindings).getBinding (h.wellBuilt.getVariableName h₁) h₂
    obtain ⟨-, more, hnodes, hmore⟩ := getBinding_nodes h₂
    refine ⟨horigin ▸ hrep.bind x binding, ?_⟩
    change b₂.dag.nodes.countP _ = s.context.length
    rw [hnodes, List.countP_append, hmore, hdag]
    exact h.count
  | EXEC_OPERATION name parameters =>
    obtain ⟨op, b₁, hop, h₁, h₂⟩ := parse_EXEC_OPERATION_ok hb'
    obtain ⟨op', hop', hs'⟩ := Option.bind_eq_some_iff.1 hs'
    obtain rfl : op = op' := Option.some.inj (hop.symm.trans hop')
    obtain ⟨-, hlength, inputs, hinputs, rfl⟩ := executeOperation_symbolic op parameters h.recorded hs'
    have hstart : Connecting operation s op b.dag.nodes.length [] (b.addNode (.operation op)) := by
      refine ⟨h.represents.addNode h.wellBuilt _ fun _ => ?_, h.wellBuilt.addOperation op, List.getElem?_concat_length, ?_,
        ?_, ?_⟩
      · rw [executionOf_length, h.count]
      · change executionOf (b.dag.nodes ++ [_]) _ = _
        rw [executionOf_append (Nat.le_refl _), executionOf_length, h.count]
      · change (b.dag.nodes ++ [_]).countP _ = _
        rw [List.countP_append, h.count]
        rfl
      · rw [inputOrigins_addNode h.wellBuilt]
        unfold inputOrigins OperationDAG.inEdges
        rw [List.filter_eq_nil_iff.2, List.map_nil]
        intro e he
        obtain ⟨op', hhead, -⟩ := (h.wellBuilt.edge e he).2.1
        have := (List.getElem?_eq_some_iff.1 hhead).1
        simpa using Nat.ne_of_lt this
    have hconnected := hstart.connectInputs (fun p hp => isInput_of_mem hp) h₁
    have horigins : ((parameters.take op.numberOfInputs).zipIdx 1).map (fun p => (s.value symbolic p.1, p.2)) =
        (inputs.map some).zipIdx 1 := by
      rw [← mem_mapM hinputs, List.zipIdx_map]
      rfl
    rw [List.nil_append, horigins] at hconnected
    have hlen : (parameters.drop op.numberOfInputs).length = op.numberOfOutputs := by
      rw [List.length_drop, hlength]
      unfold Operation.operandCount
      omega
    have hinputsLength : inputs.length = op.numberOfInputs := by
      have := congrArg List.length (mem_mapM hinputs)
      rw [List.length_map, List.length_map, List.length_take, hlength] at this
      unfold Operation.operandCount at this
      omega
    obtain ⟨hdag, hrep⟩ := represents_assignOutputs (j := 0) (hconnected.execute hinputsLength) hconnected.node hconnected.execution h₂
    rw [← zip_range_map (parameters.drop op.numberOfInputs) (Origin.result s.context.length), hlen] at hrep
    refine ⟨hrep, ?_⟩
    rw [hdag, hconnected.count, assignResults_context]
    change _ = (s.context ++ [_]).length
    rw [List.length_append]
    rfl

/-- The builder tracks the symbolic execution of the statements. -/
theorem tracks_parse {statements : List Statement} : ∀ {b b' : OperationDAGBuilder}
    {s s' : ExecutionState Origin (List OperationExecution)}, b.Tracks operation s →
    statements.foldlM (OperationDAGBuilder.parseNode opPool) b = .ok b' →
    s.execute symbolic opPool statements = some s' → b'.Tracks operation s' := by
  induction statements with
  | nil =>
    intro b b' s s' h hb hs
    cases hb
    cases hs
    exact h
  | cons statement statements ih =>
    intro b b' s s' h hb hs
    obtain ⟨b₁, hb₁, hb⟩ := bind_eq_ok.1 (List.foldlM_cons.symm.trans hb)
    unfold ExecutionState.execute at hs ih
    rw [List.foldlM_cons] at hs
    obtain ⟨s₁, hs₁, hs⟩ := Option.bind_eq_some_iff.1 hs
    obtain ⟨hrep, hcount⟩ := Represents.parseNode h hb₁ hs₁
    exact ih ⟨hrep, h.wellBuilt.parseNode hb₁, executeStatement_recorded h.recorded hs₁, hcount⟩ hb hs

theorem tracks_new : new.Tracks operation (ExecutionState.initial operation .operand []) where
  represents := ⟨fun _ => rfl, fun n op hop => by cases hop⟩
  wellBuilt := wellBuilt_new
  recorded := initial_recorded operation
  count := rfl

end OperationDAGBuilder

end Tce.OSAL
