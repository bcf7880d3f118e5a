import Tce.Base.Levels

/-!
# Operation DAGs

The behavior of an operation can be given as a sequence of statements that
execute other operations. They are turned into a graph.
-/

namespace Tce.OSAL

/-- Input operands have the indices from one on, and output operands those after them. -/
structure Operation where
  name : String
  numberOfInputs : Nat
  numberOfOutputs : Nat
  /-- The operation reads or changes memory or a state. -/
  usesContext : Bool
  deriving DecidableEq, Repr

def Operation.operandCount (op : Operation) : Nat := op.numberOfInputs + op.numberOfOutputs

def Operation.isInput (op : Operation) (operand : Nat) : Bool := 1 ≤ operand && operand ≤ op.numberOfInputs

def Operation.isOutput (op : Operation) (operand : Nat) : Bool :=
  op.numberOfInputs < operand && operand ≤ op.operandCount

/-! ## Statements -/

inductive Variable where
  | io (operand : Nat)
  | identifier (name : String)
  deriving DecidableEq, Repr

inductive Parameter where
  | var (name : Variable)
  | integer (value : Int)
  deriving DecidableEq, Repr

inductive Statement where
  | declaration (names : List String)
  | assignment (dst src : Parameter)
  | EXEC_OPERATION (name : String) (parameters : List Parameter)
  deriving DecidableEq, Repr

/-! ## Graphs -/

inductive OperationDAGNode where
  | terminal (operandIndex : Nat)
  | constant (value : Int)
  | operation (referencedOperation : Operation)
  deriving DecidableEq, Repr

def OperationDAGNode.isOperation : OperationDAGNode → Bool
  | .operation _ => true
  | _ => false

structure OperationDAGEdge where
  tail : Nat
  head : Nat
  srcOperand : Nat
  dstOperand : Nat
  deriving DecidableEq, Repr

/-- Nodes are known by their place in the list. -/
structure OperationDAG where
  nodes : List OperationDAGNode
  edges : List OperationDAGEdge
  deriving DecidableEq, Repr

namespace OperationDAG

def inEdges (dag : OperationDAG) (n : Nat) : List OperationDAGEdge := dag.edges.filter fun e => e.head = n

def outEdges (dag : OperationDAG) (n : Nat) : List OperationDAGEdge := dag.edges.filter fun e => e.tail = n

/-- The nodes that a node has edges from. -/
def predecessors (dag : OperationDAG) (n : Nat) : List Nat := (dag.inEdges n).map (·.tail)

def IsEdge (dag : OperationDAG) (m n : Nat) : Prop := ∃ e ∈ dag.edges, e.tail = m ∧ e.head = n

theorem mem_inEdges {dag : OperationDAG} {n : Nat} {e : OperationDAGEdge} :
    e ∈ dag.inEdges n ↔ e ∈ dag.edges ∧ e.head = n :=
  List.mem_filter.trans (and_congr_right fun _ => decide_eq_true_iff)

theorem mem_outEdges {dag : OperationDAG} {n : Nat} {e : OperationDAGEdge} :
    e ∈ dag.outEdges n ↔ e ∈ dag.edges ∧ e.tail = n :=
  List.mem_filter.trans (and_congr_right fun _ => decide_eq_true_iff)

theorem mem_predecessors {dag : OperationDAG} {m n : Nat} : m ∈ dag.predecessors n ↔ dag.IsEdge m n := by
  unfold predecessors IsEdge
  rw [List.mem_map]
  constructor
  · rintro ⟨e, he, htail⟩
    exact ⟨e, (mem_inEdges.1 he).1, htail, (mem_inEdges.1 he).2⟩
  · rintro ⟨e, he, htail, hhead⟩
    exact ⟨e, mem_inEdges.2 ⟨he, hhead⟩, htail⟩

end OperationDAG

end Tce.OSAL

/-!
## Execution of statements

What the statements of an operation mean when they are executed in order, on
any values and with any behaviors of the operations they execute. The symbolic
execution of statements tells where the values of their variables come from.
-/

namespace Tce.OSAL

/-- Values, and what operations do with them and with the operation context. -/
structure Machine (V C : Type) where
  constant : Int → V
  simulateTrigger : Operation → List V → C → List V × C

/-- Operations give all their results, and use the context only if they say so. -/
structure Machine.Lawful {V C : Type} (m : Machine V C) : Prop where
  length_results : ∀ op inputs c, (m.simulateTrigger op inputs c).1.length = op.numberOfOutputs
  pure : ∀ op, op.usesContext = false → ∀ inputs c c',
    m.simulateTrigger op inputs c = ((m.simulateTrigger op inputs c').1, c)

structure ExecutionState (V C : Type) where
  values : Variable → Option V
  context : C

namespace ExecutionState
variable {V C : Type} (m : Machine V C) (opPool : String → Option Operation)

/-- The operands of an operation have values at first. -/
def initial (operation : Operation) (operands : Nat → V) (context : C) : ExecutionState V C where
  values
    | .io operand => if 1 ≤ operand ∧ operand ≤ operation.operandCount then some (operands operand) else none
    | .identifier _ => none
  context := context

def value (s : ExecutionState V C) : Parameter → Option V
  | .var var => s.values var
  | .integer value => some (m.constant value)

def declare (s : ExecutionState V C) (name : String) : ExecutionState V C :=
  { s with values := Function.update s.values (.identifier name) none }

def assign (s : ExecutionState V C) (dst : Parameter) (v : Option V) : ExecutionState V C :=
  match dst with
  | .var var => { s with values := Function.update s.values var v }
  | .integer _ => s

def assignResult (s : ExecutionState V C) (result : Parameter × V) : ExecutionState V C :=
  s.assign result.1 (some result.2)

/-- An operation can be executed when all its inputs have values. -/
def executeOperation (s : ExecutionState V C) (op : Operation) (parameters : List Parameter) :
    Option (ExecutionState V C) :=
  if parameters.length = op.operandCount then
    ((parameters.take op.numberOfInputs).mapM (s.value m)).map fun inputs =>
      let results := m.simulateTrigger op inputs s.context
      ((parameters.drop op.numberOfInputs).zip results.1).foldl assignResult { s with context := results.2 }
  else none

def executeStatement (s : ExecutionState V C) : Statement → Option (ExecutionState V C)
  | .declaration names => some (names.foldl declare s)
  | .assignment dst src => some (s.assign dst (s.value m src))
  | .EXEC_OPERATION name parameters => (opPool name).bind fun op => s.executeOperation m op parameters

def execute (s : ExecutionState V C) (statements : List Statement) : Option (ExecutionState V C) :=
  statements.foldlM (executeStatement m opPool) s

end ExecutionState

/-! ## Where values come from -/

/-- The initial value of an operand, a constant, or a result of one of the
operations that are executed. -/
inductive Origin where
  | operand (operand : Nat)
  | constant (value : Int)
  | result (execution index : Nat)
  deriving DecidableEq, Repr

structure OperationExecution where
  op : Operation
  inputs : List Origin
  deriving DecidableEq, Repr

/-- The machine that records what is executed. -/
def symbolic : Machine Origin (List OperationExecution) where
  constant := .constant
  simulateTrigger op inputs executions :=
    ((List.range op.numberOfOutputs).map (.result executions.length), executions ++ [⟨op, inputs⟩])

def executeSymbolically (opPool : String → Option Operation) (operation : Operation) (statements : List Statement) :
    Option (ExecutionState Origin (List OperationExecution)) :=
  (ExecutionState.initial operation .operand []).execute symbolic opPool statements

/-- How deep a value is nested in results of operations. -/
def Origin.depth (depths : List Nat) : Origin → Nat
  | .result execution _ => depths.getD execution 0
  | _ => 0

def depths (executions : List OperationExecution) : List Nat :=
  executions.foldl (fun ds e => ds ++ [(e.inputs.map fun o => o.depth ds + 1).foldr max 0]) []

/-- The first statement that mentions an operand reads it. -/
def isReadFirst (opPool : String → Option Operation) (operand : Nat) : List Statement → Bool
  | [] => false
  | .declaration _ :: statements => isReadFirst opPool operand statements
  | .assignment dst src :: statements =>
    if src = .var (.io operand) then true
    else if dst = .var (.io operand) then false
    else isReadFirst opPool operand statements
  | .EXEC_OPERATION name parameters :: statements =>
    match opPool name with
    | none => false
    | some op =>
      if .var (.io operand) ∈ parameters.take op.numberOfInputs then true
      else if .var (.io operand) ∈ parameters then false
      else isReadFirst opPool operand statements

end Tce.OSAL

/-!
## Simulating operation DAGs

`OperationDAGBehavior` makes a script of steps out of a graph, level by level.
The parameters of a step point to the operands of the operation, to constants
or to temporary values.
-/

namespace Tce.OSAL

/-- What a parameter points to: an operand in `ios_`, or a value of `cleanUpTable_`. -/
inductive Cell where
  | ios (operand : Nat)
  | value (index : Nat)
  deriving DecidableEq, Repr

/-- Parameters that are not set point nowhere. -/
structure SimulationStep where
  op : Operation
  params : Nat → Option Cell

structure OperationDAGBehavior where
  simulationSteps : List SimulationStep
  stepOfNode : Nat → Nat
  /-- The values that were allocated; those for results are not set. -/
  cleanUpTable : List (Option Int)

namespace OperationDAGBehavior

def allocate (b : OperationDAGBehavior) (value : Option Int) : OperationDAGBehavior :=
  { b with cleanUpTable := b.cleanUpTable ++ [value] }

def setInput (dag : OperationDAG) (s : OperationDAGBehavior × (Nat → Option Cell)) (e : OperationDAGEdge) :
    OperationDAGBehavior × (Nat → Option Cell) :=
  match dag.nodes[e.tail]? with
  | some (.terminal operandIndex) => (s.1, Function.update s.2 (e.dstOperand - 1) (some (.ios operandIndex)))
  | some (.constant value) =>
    (s.1.allocate (some value), Function.update s.2 (e.dstOperand - 1) (some (.value s.1.cleanUpTable.length)))
  | some (.operation _) =>
    let refStep := s.1.simulationSteps[s.1.stepOfNode e.tail]?
    (s.1, Function.update s.2 (e.dstOperand - 1) (refStep.bind fun step => step.params (e.srcOperand - 1)))
  | none => s

def setOutput (dag : OperationDAG) (s : OperationDAGBehavior × (Nat → Option Cell)) (e : OperationDAGEdge) :
    OperationDAGBehavior × (Nat → Option Cell) :=
  match dag.nodes[e.head]? with
  | some (.terminal operandIndex) => (s.1, Function.update s.2 (e.srcOperand - 1) (some (.ios operandIndex)))
  | some (.operation _) =>
    (s.1.allocate none, Function.update s.2 (e.srcOperand - 1) (some (.value s.1.cleanUpTable.length)))
  | _ => s

/-- A step for an operation node. -/
def addStep (dag : OperationDAG) (b : OperationDAGBehavior) (n : Nat) : OperationDAGBehavior :=
  match dag.nodes[n]? with
  | some (.operation op) =>
    let s := (dag.inEdges n).foldl (setInput dag) (b, fun _ => none)
    let s := (dag.outEdges n).foldl (setOutput dag) s
    { s.1 with
      stepOfNode := Function.update s.1.stepOfNode n s.1.simulationSteps.length
      simulationSteps := s.1.simulationSteps ++ [⟨op, s.2⟩] }
  | _ => b

def nodeLevels (dag : OperationDAG) : Option (List (List Nat)) :=
  Levels.compute dag.nodes.length dag.predecessors (dag.nodes.length + 1) []

/-- There is no behavior if the nodes cannot be put on levels. -/
def new (dag : OperationDAG) : Option OperationDAGBehavior :=
  (nodeLevels dag).map fun levels => levels.flatten.foldl (addStep dag) ⟨[], fun _ => 0, []⟩

end OperationDAGBehavior

/-! ## Simulation -/

structure Memory (V : Type) where
  ios : Nat → V
  values : Nat → Option V

namespace Memory
variable {V : Type} (operandCount : Nat)

/-- A value that was never written cannot be read. -/
def read (mem : Memory V) : Cell → Option V
  | .ios operand => if 1 ≤ operand ∧ operand ≤ operandCount then some (mem.ios operand) else none
  | .value index => mem.values index

def write (mem : Memory V) (v : V) : Cell → Option (Memory V)
  | .ios operand =>
    if 1 ≤ operand ∧ operand ≤ operandCount then some { mem with ios := Function.update mem.ios operand v } else none
  | .value index => some { mem with values := Function.update mem.values index (some v) }

end Memory

namespace OperationDAGBehavior
variable {V C : Type} (m : Machine V C) (operandCount : Nat)

def readParam (step : SimulationStep) (mem : Memory V) (i : Nat) : Option V :=
  (step.params i).bind (mem.read operandCount)

def writeParam (step : SimulationStep) (mem : Memory V) (result : V × Nat) : Option (Memory V) :=
  (step.params result.2).bind (mem.write operandCount result.1)

def simulateStep (s : Memory V × C) (step : SimulationStep) : Option (Memory V × C) :=
  ((List.range step.op.numberOfInputs).mapM (readParam operandCount step s.1)).bind fun inputs =>
    let results := m.simulateTrigger step.op inputs s.2
    ((results.1.zipIdx step.op.numberOfInputs).foldlM (writeParam operandCount step) s.1).map fun mem => (mem, results.2)

def initialMemory (b : OperationDAGBehavior) (operands : Nat → V) : Memory V where
  ios := operands
  values index := (b.cleanUpTable[index]?).join.map m.constant

/-- The operands and the context after the steps, unless a step reads or writes
where its parameters do not point to a value. -/
def simulateTrigger (b : OperationDAGBehavior) (operands : Nat → V) (context : C) : Option ((Nat → V) × C) :=
  (b.simulationSteps.foldlM (simulateStep m operandCount) (b.initialMemory m operands, context)).map
    fun s => (s.1.ios, s.2)

end OperationDAGBehavior

end Tce.OSAL
