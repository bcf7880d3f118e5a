/-!
# Function units and their pipelines

The part of the machine object model that conflict detection reads: the
operations of a unit, the pipeline resources each of them uses in each cycle,
and the ports its operands are bound to.
-/

namespace Tce

/-- Resource usages, operand reads and operand writes, cycle by cycle. The
three tables have one length, which is the latency (asserted by `latency`). -/
structure ExecutionPipeline where
  resourceUsage : List (List String)
  opReads : List (List Nat)
  opWrites : List (List Nat)
  reads_length : opReads.length = resourceUsage.length
  writes_length : opWrites.length = resourceUsage.length
  deriving DecidableEq, Repr

namespace ExecutionPipeline

def latency (p : ExecutionPipeline) : Nat := p.resourceUsage.length

/-- Sets of a cycle past the latency are empty. -/
def resourceUsages (p : ExecutionPipeline) (cycle : Nat) : List String := p.resourceUsage.getD cycle []
def readOperands (p : ExecutionPipeline) (cycle : Nat) : List Nat := p.opReads.getD cycle []
def writtenOperands (p : ExecutionPipeline) (cycle : Nat) : List Nat := p.opWrites.getD cycle []

theorem resourceUsages_past {p : ExecutionPipeline} {cycle : Nat} (h : p.latency ≤ cycle) :
    p.resourceUsages cycle = [] := by
  rw [resourceUsages, List.getD_eq_getElem?_getD, List.getElem?_eq_none h, Option.getD_none]

theorem readOperands_past {p : ExecutionPipeline} {cycle : Nat} (h : p.latency ≤ cycle) :
    p.readOperands cycle = [] := by
  rw [readOperands, List.getD_eq_getElem?_getD, List.getElem?_eq_none (by rw [p.reads_length]; exact h),
    Option.getD_none]

theorem writtenOperands_past {p : ExecutionPipeline} {cycle : Nat} (h : p.latency ≤ cycle) :
    p.writtenOperands cycle = [] := by
  rw [writtenOperands, List.getD_eq_getElem?_getD, List.getElem?_eq_none (by rw [p.writes_length]; exact h),
    Option.getD_none]

end ExecutionPipeline

/-- An operation port; `bindingString` lists the operands bound to it. -/
structure FUPort where
  bindingString : String
  deriving DecidableEq, Repr

/-- `operandBinding` maps operands to operation ports, given by their index. -/
structure HWOperation where
  name : String
  pipeline : ExecutionPipeline
  operandBinding : List (Nat × Nat)
  deriving DecidableEq, Repr

namespace HWOperation

def latency (op : HWOperation) : Nat := op.pipeline.latency

/-- The port bound to an operand, if there is one. -/
def port (op : HWOperation) (operand : Nat) : Option Nat := op.operandBinding.lookup operand

def isOperandBound (op : HWOperation) (port : Nat) (operands : List Nat) : Bool :=
  operands.any fun operand => op.port operand == some port

/-- Whether a port is read or written by the pipeline in a cycle. -/
def isPortUsed (op : HWOperation) (port cycle : Nat) : Bool :=
  op.isOperandBound port (op.pipeline.readOperands cycle) ||
    op.isOperandBound port (op.pipeline.writtenOperands cycle)

def isResourceUsed (op : HWOperation) (resource : String) (cycle : Nat) : Bool :=
  (op.pipeline.resourceUsages cycle).contains resource

end HWOperation

/-- A unit keeps the pipeline elements its operations use under distinct names,
its operations under distinct lower-case names, and binds operands to ports of
its own. -/
structure FunctionUnit where
  operationPorts : List FUPort
  pipelineElements : List String
  operations : List HWOperation
  elements_nodup : pipelineElements.Nodup
  names_nodup : (operations.map HWOperation.name).Nodup
  names_lower : ∀ op ∈ operations, ∀ c ∈ op.name.toList, c.toLower = c
  elements_used : ∀ op ∈ operations, ∀ usages ∈ op.pipeline.resourceUsage, ∀ resource ∈ usages,
    resource ∈ pipelineElements
  ports_bound : ∀ op ∈ operations, ∀ binding ∈ op.operandBinding, binding.2 < operationPorts.length

namespace FunctionUnit

def operationCount (fu : FunctionUnit) : Nat := fu.operations.length
def operationPortCount (fu : FunctionUnit) : Nat := fu.operationPorts.length
def pipelineElementCount (fu : FunctionUnit) : Nat := fu.pipelineElements.length

/-- Operations are known to the conflict detectors by their index in the unit. -/
abbrev OperationID (fu : FunctionUnit) := Fin fu.operations.length

def operation (fu : FunctionUnit) (id : fu.OperationID) : HWOperation := fu.operations[id]

def maxLatency (fu : FunctionUnit) : Nat :=
  fu.operations.foldl (fun longest op => if op.latency > longest then op.latency else longest) 0

theorem foldl_max_le (ops : List HWOperation) (start : Nat) :
    let longest := ops.foldl (fun longest op => if op.latency > longest then op.latency else longest) start
    start ≤ longest ∧ ∀ op ∈ ops, op.latency ≤ longest := by
  induction ops generalizing start with
  | nil => simp
  | cons op ops ih =>
    obtain ⟨h1, h2⟩ := ih (if op.latency > start then op.latency else start)
    have hbig : start ≤ (if op.latency > start then op.latency else start) ∧
        op.latency ≤ (if op.latency > start then op.latency else start) := by
      split <;> omega
    simp only [List.foldl_cons, List.mem_cons, forall_eq_or_imp]
    exact ⟨Nat.le_trans hbig.1 h1, Nat.le_trans hbig.2 h1, h2⟩

theorem latency_le (fu : FunctionUnit) (id : fu.OperationID) :
    (fu.operation id).latency ≤ fu.maxLatency :=
  (foldl_max_le fu.operations 0).2 _ (List.getElem_mem _)

end FunctionUnit
end Tce
