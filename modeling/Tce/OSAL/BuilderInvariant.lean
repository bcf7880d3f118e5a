import Tce.OSAL.OperationDAGBuilder

/-!
# What the builder keeps

The variables of the builder are bound to nodes that exist and to operands that
these have. Edges lead to operation nodes, and from an operation node only to
later ones.
-/

namespace Tce.OSAL

theorem bind_eq_ok {α β : Type} {r : Except Fault α} {f : α → Except Fault β} {b : β} :
    r >>= f = .ok b ↔ ∃ a, r = .ok a ∧ f a = .ok b := by
  cases r with
  | error e =>
    constructor
    · intro h
      cases h
    · rintro ⟨a, ha, -⟩
      cases ha
  | ok a =>
    constructor
    · exact fun h => ⟨a, rfl, h⟩
    · rintro ⟨_, ha, h⟩
      cases ha
      exact h

/-- An invariant of a fold over the elements of a list. -/
theorem foldlM_invariant {α β : Type} {f : β → α → Except Fault β} {P : β → Prop} {as : List α}
    (hf : ∀ a ∈ as, ∀ b b', P b → f b a = .ok b' → P b') : ∀ {b b' : β}, P b → as.foldlM f b = .ok b' → P b' := by
  induction as with
  | nil =>
    intro b b' hb h
    cases h
    exact hb
  | cons a as ih =>
    intro b b' hb h
    obtain ⟨ha, has⟩ := List.forall_mem_cons.1 hf
    obtain ⟨b₁, h₁, h⟩ := bind_eq_ok.1 (List.foldlM_cons.symm.trans h)
    exact ih has (ha b b₁ hb h₁) h

/-- A node whose operand can be the source of an edge. -/
def IsSource (nodes : List OperationDAGNode) (n operand : Nat) : Prop :=
  ∃ node, nodes[n]? = some node ∧ ∀ op, node = .operation op → op.isOutput operand = true

def IsOperation (nodes : List OperationDAGNode) (n : Nat) : Prop := ∃ op, nodes[n]? = some (.operation op)

theorem getElem?_append_some {α : Type} {as bs : List α} {n : Nat} {a : α} (h : as[n]? = some a) :
    (as ++ bs)[n]? = some a := by
  rw [List.getElem?_append_left (List.getElem?_eq_some_iff.1 h).1, h]

theorem IsSource.append {nodes : List OperationDAGNode} {n operand : Nat} (h : IsSource nodes n operand)
    (more : List OperationDAGNode) : IsSource (nodes ++ more) n operand := by
  obtain ⟨node, hnode, hop⟩ := h
  exact ⟨node, getElem?_append_some hnode, hop⟩

theorem IsSource.lt {nodes : List OperationDAGNode} {n operand : Nat} (h : IsSource nodes n operand) :
    n < nodes.length := by
  obtain ⟨node, hnode, -⟩ := h
  exact (List.getElem?_eq_some_iff.1 hnode).1

namespace OperationDAGBuilder

/-! ## What each function does -/

theorem getVariableName_ok {b b' : OperationDAGBuilder} {p : Parameter} {x : Variable}
    (h : b.getVariableName p = .ok (b', x)) :
    p = .var x ∧ b'.dag = b.dag ∧ b'.variableBindings = b.variableBindings ∧
      b'.constantBindings = b.constantBindings := by
  cases p with
  | integer => cases h
  | var y =>
    cases y with
    | identifier =>
      cases h
      exact ⟨rfl, rfl, rfl, rfl⟩
    | io k =>
      cases h
      refine ⟨rfl, ?_⟩
      split <;> exact ⟨rfl, rfl, rfl⟩

/-- A variable keeps its binding; operands and constants that have no node get one. -/
theorem getBinding_ok {b b' : OperationDAGBuilder} {p : Parameter} {binding : VariableBinding}
    (h : b.getBinding p = .ok (b', binding)) :
    (b' = b ∧ ∃ x, p = .var x ∧ b.variableBindings x = some binding) ∨
    (binding = ⟨some b.dag.nodes.length, 1⟩ ∧ ∃ k, p = .var (.io k) ∧ b.variableBindings (.io k) = none ∧
      b' = ((b.addNode (.terminal k)).bind (.io k) binding).setTerminal k b.dag.nodes.length) ∨
    (b' = b ∧ ∃ v, p = .integer v ∧ b.constantBindings v = some binding) ∨
    (binding = ⟨some b.dag.nodes.length, 1⟩ ∧ ∃ v, p = .integer v ∧ b.constantBindings v = none ∧
      b' = { b.addNode (.constant v) with
        constantBindings := Function.update b.constantBindings v (some binding) }) := by
  cases p with
  | integer v =>
    unfold getBinding getConstantBinding at h
    dsimp only at h
    cases hv : b.constantBindings v with
    | some c =>
      rw [hv] at h
      cases h
      exact .inr (.inr (.inl ⟨rfl, v, rfl, hv⟩))
    | none =>
      rw [hv] at h
      cases h
      exact .inr (.inr (.inr ⟨rfl, v, rfl, hv, rfl⟩))
  | var x =>
    cases x with
    | identifier name =>
      unfold getBinding at h
      dsimp only at h
      cases hx : b.variableBindings (.identifier name) with
      | none =>
        rw [hx] at h
        cases h
      | some c =>
        rw [hx] at h
        cases h
        exact .inl ⟨rfl, _, rfl, hx⟩
    | io k =>
      unfold getBinding getIOBinding at h
      dsimp only at h
      cases hk : b.variableBindings (.io k) with
      | some c =>
        rw [hk] at h
        cases h
        exact .inl ⟨rfl, _, rfl, hk⟩
      | none =>
        rw [hk] at h
        cases h
        exact .inr (.inl ⟨rfl, k, rfl, hk, rfl⟩)

theorem declareVariable_ok {b b' : OperationDAGBuilder} {name : String} (h : b.declareVariable name = .ok b') :
    b.variableBindings (.identifier name) = none ∧ b' = b.bind (.identifier name) ⟨none, 0⟩ := by
  unfold declareVariable at h
  split at h
  · cases h
  · next hnone =>
    cases h
    exact ⟨by simpa using hnone, rfl⟩

theorem assignVariable_ok {b b' : OperationDAGBuilder} {dst src : Parameter} (h : b.assignVariable dst src = .ok b') :
    ∃ b₁ b₂ x binding, b.getVariableName dst = .ok (b₁, x) ∧ b₁.getBinding src = .ok (b₂, binding) ∧
      b' = b₂.bind x binding := by
  obtain ⟨⟨b₁, x⟩, h₁, h⟩ := bind_eq_ok.1 h
  obtain ⟨⟨b₂, binding⟩, h₂, h⟩ := bind_eq_ok.1 h
  cases h
  exact ⟨b₁, b₂, x, binding, h₁, h₂, rfl⟩

theorem assignResult_ok {b b' : OperationDAGBuilder} {dst : Parameter} {src : VariableBinding}
    (h : b.assignResult dst src = .ok b') :
    ∃ b₁ x, b.getVariableName dst = .ok (b₁, x) ∧ b' = b₁.bind x src := by
  obtain ⟨⟨b₁, x⟩, h₁, h⟩ := bind_eq_ok.1 h
  refine ⟨b₁, x, h₁, ?_⟩
  dsimp only at h
  split at h
  · cases h
    rfl
  · cases h

theorem connectOperandToNode_ok {op : Operation} {n : Nat} {b b' : OperationDAGBuilder} {p : Parameter} {i : Nat}
    (h : connectOperandToNode op n b (p, i) = .ok b') :
    (op.isInput i = true ∧ ∃ b₁ binding m, b.getBinding p = .ok (b₁, binding) ∧ binding.node = some m ∧
      b' = b₁.connectNodes ⟨m, n, binding.operand, i⟩) ∨
    (op.isInput i = false ∧ op.isOutput i = true ∧ b.assignResult p ⟨some n, i⟩ = .ok b') := by
  unfold connectOperandToNode at h
  dsimp only at h
  by_cases hcount : i > op.operandCount
  · rw [if_pos hcount] at h
    cases h
  rw [if_neg hcount] at h
  by_cases hinput : op.isInput i = true
  · rw [if_pos hinput] at h
    obtain ⟨⟨b₁, binding⟩, h₁, h⟩ := bind_eq_ok.1 h
    dsimp only at h
    cases hm : binding.node with
    | none =>
      rw [hm] at h
      cases h
    | some m =>
      rw [hm] at h
      cases h
      exact .inl ⟨hinput, b₁, binding, m, h₁, hm, rfl⟩
  · rw [if_neg hinput] at h
    by_cases houtput : op.isOutput i = true
    · rw [if_pos houtput] at h
      exact .inr ⟨by simpa using hinput, houtput, h⟩
    · rw [if_neg houtput] at h
      cases h

/-! ## Well built graphs -/

/-- Operation nodes other than the given one can be the sources of edges to it. -/
structure WellBuilt (b : OperationDAGBuilder) (current : Option Nat) : Prop where
  binding : ∀ x binding n, b.variableBindings x = some binding → binding.node = some n →
    IsSource b.dag.nodes n binding.operand ∧ current ≠ some n
  constant : ∀ v binding, b.constantBindings v = some binding →
    ∃ n, binding.node = some n ∧ b.dag.nodes[n]? = some (.constant v)
  edge : ∀ e ∈ b.dag.edges, IsSource b.dag.nodes e.tail e.srcOperand ∧
    (∃ op, b.dag.nodes[e.head]? = some (.operation op) ∧ op.isInput e.dstOperand = true) ∧
    (IsOperation b.dag.nodes e.tail → e.tail < e.head)
  current : ∀ n, current = some n → IsOperation b.dag.nodes n ∧ ∀ k, IsOperation b.dag.nodes k → k ≤ n

theorem WellBuilt.of_eq {b b' : OperationDAGBuilder} {current : Option Nat} (hb : b.WellBuilt current)
    (hdag : b'.dag = b.dag) (hbindings : b'.variableBindings = b.variableBindings)
    (hconstants : b'.constantBindings = b.constantBindings) : b'.WellBuilt current := by
  constructor
  · rw [hdag, hbindings]
    exact hb.binding
  · rw [hdag, hconstants]
    exact hb.constant
  · rw [hdag]
    exact hb.edge
  · rw [hdag]
    exact hb.current

theorem isOperation_concat {nodes : List OperationDAGNode} {node : OperationDAGNode} {n : Nat} :
    IsOperation (nodes ++ [node]) n ↔ IsOperation nodes n ∨ n = nodes.length ∧ node.isOperation = true := by
  unfold IsOperation
  by_cases hn : n < nodes.length
  · rw [List.getElem?_append_left hn]
    constructor
    · exact .inl
    · rintro (h | ⟨heq, -⟩)
      · exact h
      · omega
  · rw [List.getElem?_append_right (Nat.le_of_not_lt hn)]
    have hnone : nodes[n]? = none := List.getElem?_eq_none (Nat.le_of_not_lt hn)
    rw [hnone]
    by_cases heq : n = nodes.length
    · subst heq
      rw [Nat.sub_self]
      cases node <;> simp [OperationDAGNode.isOperation]
    · rw [List.getElem?_eq_none (by rw [List.length_singleton]; omega)]
      simp [heq]

/-- A terminal or a constant is added. -/
theorem WellBuilt.addNode {b : OperationDAGBuilder} {current : Option Nat} (hb : b.WellBuilt current)
    (node : OperationDAGNode) (hnode : node.isOperation = false) : (b.addNode node).WellBuilt current := by
  have hop : ∀ n, IsOperation (b.dag.nodes ++ [node]) n ↔ IsOperation b.dag.nodes n := by
    intro n
    rw [isOperation_concat, hnode]
    simp
  constructor
  · intro x binding n hx hn
    obtain ⟨hsource, hne⟩ := hb.binding x binding n hx hn
    exact ⟨hsource.append _, hne⟩
  · intro v binding hv
    obtain ⟨n, hn, hconstant⟩ := hb.constant v binding hv
    exact ⟨n, hn, getElem?_append_some hconstant⟩
  · intro e he
    obtain ⟨hsource, ⟨op, hop', hinput⟩, hup⟩ := hb.edge e he
    exact ⟨hsource.append _, ⟨op, getElem?_append_some hop', hinput⟩, fun h => hup ((hop _).1 h)⟩
  · intro n hn
    obtain ⟨hcur, hlast⟩ := hb.current n hn
    exact ⟨(hop n).2 hcur, fun k hk => hlast k ((hop k).1 hk)⟩

theorem WellBuilt.bind {b : OperationDAGBuilder} {current : Option Nat} (hb : b.WellBuilt current) (x : Variable)
    {binding : VariableBinding}
    (hbinding : ∀ n, binding.node = some n → IsSource b.dag.nodes n binding.operand ∧ current ≠ some n) :
    (b.bind x binding).WellBuilt current := by
  refine ⟨fun y binding' n hy hn => ?_, hb.constant, hb.edge, hb.current⟩
  by_cases hyx : y = x
  · subst hyx
    obtain rfl : binding = binding' := by simpa [OperationDAGBuilder.bind] using hy
    exact hbinding n hn
  · exact hb.binding y binding' n (by simpa [OperationDAGBuilder.bind, hyx] using hy) hn

/-- The new node of a terminal or a constant. -/
theorem isSource_concat {nodes : List OperationDAGNode} {node : OperationDAGNode} (hnode : node.isOperation = false)
    (operand : Nat) : IsSource (nodes ++ [node]) nodes.length operand :=
  ⟨node, List.getElem?_concat_length, fun op hop => by rw [hop] at hnode; cases hnode⟩

theorem WellBuilt.getBinding {b b' : OperationDAGBuilder} {current : Option Nat} (hb : b.WellBuilt current)
    {p : Parameter} {binding : VariableBinding} (h : b.getBinding p = .ok (b', binding)) :
    b'.WellBuilt current ∧ ∀ n, binding.node = some n → IsSource b'.dag.nodes n binding.operand ∧ current ≠ some n := by
  have hnew : ∀ n, some b.dag.nodes.length = some n → current ≠ some n := by
    intro n hn hcur
    obtain ⟨⟨op, hop⟩, -⟩ := hb.current n hcur
    have := (List.getElem?_eq_some_iff.1 hop).1
    have := Option.some.inj hn
    omega
  rcases getBinding_ok h with ⟨rfl, x, -, hx⟩ | ⟨rfl, k, -, -, rfl⟩ | ⟨rfl, v, -, hv⟩ | ⟨rfl, v, -, -, rfl⟩
  · exact ⟨hb, fun n hn => hb.binding x binding n hx hn⟩
  · have hsource : ∀ n, some b.dag.nodes.length = some n →
        IsSource (b.addNode (.terminal k)).dag.nodes n 1 ∧ current ≠ some n := by
      intro n hn
      refine ⟨?_, hnew n hn⟩
      cases hn
      exact isSource_concat rfl 1
    exact ⟨((hb.addNode (.terminal k) rfl).bind (.io k) hsource).of_eq rfl rfl rfl, hsource⟩
  · obtain ⟨n, hn, hconstant⟩ := hb.constant v binding hv
    refine ⟨hb, fun n' hn' => ?_⟩
    rw [hn] at hn'
    cases hn'
    refine ⟨⟨_, hconstant, fun op hop => by cases hop⟩, fun hcur => ?_⟩
    obtain ⟨⟨op, hop⟩, -⟩ := hb.current n hcur
    rw [hconstant] at hop
    cases hop
  · have hadd := hb.addNode (.constant v) rfl
    refine ⟨⟨hadd.binding, fun v' binding hv' => ?_, hadd.edge, hadd.current⟩, fun n hn => ⟨?_, hnew n hn⟩⟩
    · by_cases heq : v' = v
      · subst heq
        dsimp only at hv'
        rw [Function.update_self] at hv'
        cases hv'
        exact ⟨_, rfl, List.getElem?_concat_length⟩
      · dsimp only at hv'
        rw [Function.update_of_ne heq] at hv'
        exact hadd.constant v' binding hv'
    · cases hn
      exact isSource_concat rfl 1

/-- An edge to the operation that is being connected. -/
theorem WellBuilt.connectNodes {b : OperationDAGBuilder} {n m operand i : Nat} {op : Operation}
    (hb : b.WellBuilt (some n)) (hop : b.dag.nodes[n]? = some (.operation op)) (hi : op.isInput i = true)
    (hm : IsSource b.dag.nodes m operand ∧ some n ≠ some m) :
    (b.connectNodes ⟨m, n, operand, i⟩).WellBuilt (some n) := by
  refine ⟨hb.binding, hb.constant, fun e he => ?_, hb.current⟩
  cases List.mem_append.1 he with
  | inl he => exact hb.edge e he
  | inr he =>
    obtain rfl := List.mem_singleton.1 he
    refine ⟨hm.1, ⟨op, hop, hi⟩, fun hoperation => ?_⟩
    have hle := (hb.current n rfl).2 m hoperation
    have hne : n ≠ m := fun heq => hm.2 (congrArg some heq)
    dsimp only
    omega

theorem WellBuilt.addOperation {b : OperationDAGBuilder} (hb : b.WellBuilt none) (op : Operation) :
    (b.addNode (.operation op)).WellBuilt (some b.dag.nodes.length) := by
  have hold : ∀ {n}, IsOperation (b.dag.nodes ++ [.operation op]) n → n < b.dag.nodes.length → IsOperation b.dag.nodes n := by
    intro n hn hlt
    cases isOperation_concat.1 hn with
    | inl h => exact h
    | inr h => omega
  constructor
  · intro x binding n hx hn
    obtain ⟨hsource, -⟩ := hb.binding x binding n hx hn
    have := hsource.lt
    exact ⟨hsource.append _, fun heq => by cases heq; omega⟩
  · intro v binding hv
    obtain ⟨n, hn, hconstant⟩ := hb.constant v binding hv
    exact ⟨n, hn, getElem?_append_some hconstant⟩
  · intro e he
    obtain ⟨hsource, ⟨op', hop', hinput⟩, hup⟩ := hb.edge e he
    exact ⟨hsource.append _, ⟨op', getElem?_append_some hop', hinput⟩, fun h => hup (hold h hsource.lt)⟩
  · intro n hn
    cases hn
    refine ⟨isOperation_concat.2 (.inr ⟨rfl, rfl⟩), fun k hk => ?_⟩
    cases isOperation_concat.1 hk with
    | inl h =>
      obtain ⟨op', hop'⟩ := h
      exact Nat.le_of_lt (List.getElem?_eq_some_iff.1 hop').1
    | inr h => exact Nat.le_of_eq h.1

theorem WellBuilt.getVariableName {b b' : OperationDAGBuilder} {current : Option Nat} (hb : b.WellBuilt current)
    {p : Parameter} {x : Variable} (h : b.getVariableName p = .ok (b', x)) : b'.WellBuilt current := by
  obtain ⟨-, hdag, hbindings, hconstants⟩ := getVariableName_ok h
  exact hb.of_eq hdag hbindings hconstants

theorem WellBuilt.assignVariable {b b' : OperationDAGBuilder} (hb : b.WellBuilt none) {dst src : Parameter}
    (h : b.assignVariable dst src = .ok b') : b'.WellBuilt none := by
  obtain ⟨b₁, b₂, x, binding, h₁, h₂, rfl⟩ := assignVariable_ok h
  obtain ⟨hb₂, hbinding⟩ := (hb.getVariableName h₁).getBinding h₂
  exact hb₂.bind x hbinding

/-- The inputs of an operation come before its outputs, so that no input can be
one of its own results. -/
theorem WellBuilt.connectInput {b b' : OperationDAGBuilder} {op : Operation} {n : Nat} {p : Parameter} {i : Nat}
    (hb : b.WellBuilt (some n)) (hop : b.dag.nodes[n]? = some (.operation op)) (hi : op.isInput i = true)
    (h : connectOperandToNode op n b (p, i) = .ok b') :
    b'.WellBuilt (some n) ∧ b'.dag.nodes[n]? = some (.operation op) := by
  rcases connectOperandToNode_ok h with ⟨-, b₁, binding, m, h₁, hm, rfl⟩ | ⟨hinput, -⟩
  · obtain ⟨hb₁, hbinding⟩ := hb.getBinding h₁
    obtain ⟨op', hop'⟩ := (hb₁.current n rfl).1
    have hsame : b₁.dag.nodes[n]? = some (.operation op) := by
      rcases getBinding_ok h₁ with ⟨rfl, -⟩ | ⟨-, k, -, -, rfl⟩ | ⟨rfl, -⟩ | ⟨-, v, -, -, rfl⟩
      · exact hop
      · exact getElem?_append_some hop
      · exact hop
      · exact getElem?_append_some hop
    exact ⟨hb₁.connectNodes hsame hi (hbinding m hm), hsame⟩
  · rw [hi] at hinput
    cases hinput

theorem WellBuilt.assignOutput {b b' : OperationDAGBuilder} {op : Operation} {n : Nat} {p : Parameter} {i : Nat}
    (hb : b.WellBuilt none) (hop : b.dag.nodes[n]? = some (.operation op)) (hi : op.isInput i = false)
    (h : connectOperandToNode op n b (p, i) = .ok b') :
    b'.WellBuilt none ∧ b'.dag.nodes[n]? = some (.operation op) := by
  rcases connectOperandToNode_ok h with ⟨hinput, -⟩ | ⟨-, houtput, h⟩
  · rw [hi] at hinput
    cases hinput
  · obtain ⟨b₁, x, h₁, rfl⟩ := assignResult_ok h
    have hdag := (getVariableName_ok h₁).2.1
    refine ⟨(hb.getVariableName h₁).bind x fun n' hn' => ⟨?_, fun hnone => by cases hnone⟩, ?_⟩
    · cases hn'
      rw [hdag]
      exact ⟨_, hop, fun op' hop' => by cases hop'; exact houtput⟩
    · change b₁.dag.nodes[n]? = _
      rw [hdag]
      exact hop

/-- The parameters of an operation that are inputs, and the others. -/
theorem zipIdx_split (op : Operation) (parameters : List Parameter) :
    parameters.zipIdx 1 = (parameters.take op.numberOfInputs).zipIdx 1 ++
      (parameters.drop op.numberOfInputs).zipIdx (op.numberOfInputs + 1) := by
  by_cases hle : op.numberOfInputs ≤ parameters.length
  · conv_lhs => rw [← List.take_append_drop op.numberOfInputs parameters]
    rw [List.zipIdx_append, List.length_take, Nat.min_eq_left hle, Nat.add_comm 1]
  · rw [List.take_of_length_le (by omega), List.drop_of_length_le (by omega)]
    exact (List.append_nil _).symm

theorem isInput_of_mem {op : Operation} {parameters : List Parameter} {p : Parameter × Nat}
    (hp : p ∈ (parameters.take op.numberOfInputs).zipIdx 1) : op.isInput p.2 = true := by
  have hlt := List.mem_zipIdx hp
  rw [List.length_take] at hlt
  unfold Operation.isInput
  rw [Bool.and_eq_true, decide_eq_true_iff, decide_eq_true_iff]
  omega

theorem isInput_of_mem_drop {op : Operation} {parameters : List Parameter} {p : Parameter × Nat}
    (hp : p ∈ (parameters.drop op.numberOfInputs).zipIdx (op.numberOfInputs + 1)) : op.isInput p.2 = false := by
  have hlt := List.mem_zipIdx hp
  unfold Operation.isInput
  rw [Bool.and_eq_false_iff, decide_eq_false_iff_not, decide_eq_false_iff_not]
  omega

variable {opPool : String → Option Operation}

theorem parse_EXEC_OPERATION_ok {b b' : OperationDAGBuilder} {name : String} {parameters : List Parameter}
    (h : b.parseNode opPool (.EXEC_OPERATION name parameters) = .ok b') : ∃ op b₁, opPool name = some op ∧
      ((parameters.take op.numberOfInputs).zipIdx 1).foldlM (connectOperandToNode op b.dag.nodes.length)
        (b.addNode (.operation op)) = .ok b₁ ∧
      ((parameters.drop op.numberOfInputs).zipIdx (op.numberOfInputs + 1)).foldlM
        (connectOperandToNode op b.dag.nodes.length) b₁ = .ok b' := by
  unfold parseNode at h
  dsimp only at h
  cases hop : opPool name with
  | none =>
    rw [hop] at h
    cases h
  | some op =>
    rw [hop] at h
    dsimp only at h
    rw [zipIdx_split op, List.foldlM_append] at h
    obtain ⟨b₁, h₁, h₂⟩ := bind_eq_ok.1 h
    exact ⟨op, b₁, rfl, h₁, h₂⟩

theorem WellBuilt.parseNode {b b' : OperationDAGBuilder} (hb : b.WellBuilt none) {statement : Statement}
    (h : b.parseNode opPool statement = .ok b') : b'.WellBuilt none := by
  cases statement with
  | declaration names =>
    apply foldlM_invariant (P := fun b => b.WellBuilt none) ?_ hb h
    intro name _ b b' hb hname
    rw [(declareVariable_ok hname).2]
    exact hb.bind _ fun n hn => by cases hn
  | assignment dst src => exact hb.assignVariable h
  | EXEC_OPERATION name parameters =>
    obtain ⟨op, b₁, -, h₁, h₂⟩ := parse_EXEC_OPERATION_ok h
    obtain ⟨hb₁, hop⟩ := foldlM_invariant
      (P := fun b₁ => b₁.WellBuilt (some b.dag.nodes.length) ∧ b₁.dag.nodes[b.dag.nodes.length]? = some (.operation op))
      (fun p hp b₁ b₂ hb₁ h => hb₁.1.connectInput hb₁.2 (isInput_of_mem hp) h)
      ⟨hb.addOperation op, List.getElem?_concat_length⟩ h₁
    have hnone : b₁.WellBuilt none := by
      refine ⟨fun x binding n hx hn => ⟨(hb₁.binding x binding n hx hn).1, fun heq => by cases heq⟩, hb₁.constant,
        hb₁.edge, fun n hn => by cases hn⟩
    exact (foldlM_invariant
      (P := fun b₂ => b₂.WellBuilt none ∧ b₂.dag.nodes[b.dag.nodes.length]? = some (.operation op))
      (fun p hp b₂ b₃ hb₂ h => hb₂.1.assignOutput hb₂.2 (isInput_of_mem_drop hp) h) ⟨hnone, hop⟩ h₂).1

theorem wellBuilt_new : new.WellBuilt none where
  binding _ _ _ hx := by cases hx
  constant _ _ hv := by cases hv
  edge _ he := by cases he
  current _ hn := by cases hn

/-- Whatever the statements, the graph is well built. -/
theorem wellBuilt_parse {statements : List Statement} {b : OperationDAGBuilder}
    (h : statements.foldlM (parseNode opPool) new = .ok b) : b.WellBuilt none :=
  foldlM_invariant (P := fun b => b.WellBuilt none) (fun _ _ _ _ hb h => hb.parseNode h) wellBuilt_new h

end OperationDAGBuilder

end Tce.OSAL
