import Mathlib.Data.Char
import Mathlib.Data.List.Lex
import Tce.OSAL.OperationDAG

/-!
# Building operation DAGs

`OperationDAGBuilder` keeps for each variable the node and the operand of it
that was last assigned to the variable. Output terminals are added at the end.
-/

namespace Tce.OSAL

/-- `IllegalParameters`, and a use of the node of a variable that has none. -/
inductive Fault where
  | operationDoesNotExist (name : String)
  | noOperandNumber (operand : Nat)
  | sourceNodeIsNULL (operand : Nat)
  | alreadyExists (name : String)
  | wasNotDeclared (var : Variable)
  | isNotVariable (parameter : Parameter)
  | uninitializedVariable (name : String)
  | noResultOperandNumber (operand : Nat)
  | doesNotWriteToOutputs (operands : List Nat)
  | nullNode
  deriving DecidableEq, Repr

structure VariableBinding where
  node : Option Nat
  operand : Nat
  deriving DecidableEq, Repr

structure OperationDAGBuilder where
  dag : OperationDAG
  variableBindings : Variable → Option VariableBinding
  constantBindings : Int → Option VariableBinding
  /-- The operands that are referred to, with their terminals. -/
  ioVariables : List (Nat × Option Nat)

/-- The name by which `ioVariables_` is ordered. -/
def ioName (operand : Nat) : List Char := ['I', 'O', '('] ++ Nat.toDigits 10 operand ++ [')']

namespace OperationDAGBuilder

def new : OperationDAGBuilder := ⟨⟨[], []⟩, fun _ => none, fun _ => none, []⟩

def addNode (b : OperationDAGBuilder) (node : OperationDAGNode) : OperationDAGBuilder :=
  { b with dag := { b.dag with nodes := b.dag.nodes ++ [node] } }

def connectNodes (b : OperationDAGBuilder) (e : OperationDAGEdge) : OperationDAGBuilder :=
  { b with dag := { b.dag with edges := b.dag.edges ++ [e] } }

def bind (b : OperationDAGBuilder) (var : Variable) (binding : VariableBinding) : OperationDAGBuilder :=
  { b with variableBindings := Function.update b.variableBindings var (some binding) }

def isReferenced (b : OperationDAGBuilder) (operand : Nat) : Bool := b.ioVariables.any fun io => io.1 = operand

def setTerminal (b : OperationDAGBuilder) (operand node : Nat) : OperationDAGBuilder :=
  { b with ioVariables := (operand, some node) :: b.ioVariables.filter fun io => io.1 ≠ operand }

/-- A terminal that is referred to is marked. -/
def getVariableName (b : OperationDAGBuilder) : Parameter → Except Fault (OperationDAGBuilder × Variable)
  | .var (.io operand) =>
    .ok (if b.isReferenced operand then b else { b with ioVariables := (operand, none) :: b.ioVariables }, .io operand)
  | .var var => .ok (b, var)
  | .integer value => .error (.isNotVariable (.integer value))

def getConstantBinding (b : OperationDAGBuilder) (value : Int) : OperationDAGBuilder × VariableBinding :=
  match b.constantBindings value with
  | some binding => (b, binding)
  | none =>
    let binding : VariableBinding := ⟨some b.dag.nodes.length, 1⟩
    ({ b.addNode (.constant value) with
      constantBindings := Function.update b.constantBindings value (some binding) }, binding)

/-- An operand that is read before it is written gets its terminal. -/
def getIOBinding (b : OperationDAGBuilder) (operand : Nat) : OperationDAGBuilder × VariableBinding :=
  match b.variableBindings (.io operand) with
  | some binding => (b, binding)
  | none =>
    let binding : VariableBinding := ⟨some b.dag.nodes.length, 1⟩
    (((b.addNode (.terminal operand)).bind (.io operand) binding).setTerminal operand b.dag.nodes.length, binding)

def getBinding (b : OperationDAGBuilder) : Parameter → Except Fault (OperationDAGBuilder × VariableBinding)
  | .var (.io operand) => .ok (b.getIOBinding operand)
  | .var (.identifier name) =>
    match b.variableBindings (.identifier name) with
    | some binding => .ok (b, binding)
    | none => .error (.uninitializedVariable name)
  | .integer value => .ok (b.getConstantBinding value)

def declareVariable (b : OperationDAGBuilder) (name : String) : Except Fault OperationDAGBuilder :=
  if (b.variableBindings (.identifier name)).isSome then .error (.alreadyExists name)
  else .ok (b.bind (.identifier name) ⟨none, 0⟩)

def assignVariable (b : OperationDAGBuilder) (dst src : Parameter) : Except Fault OperationDAGBuilder := do
  let (b, dstName) ← b.getVariableName dst
  let (b, binding) ← b.getBinding src
  return b.bind dstName binding

def isDeclared (b : OperationDAGBuilder) : Variable → Bool
  | .io operand => (b.variableBindings (.io operand)).isSome || b.isReferenced operand
  | .identifier name => (b.variableBindings (.identifier name)).isSome

/-- A result is assigned to a variable that has been declared, or to an operand. -/
def assignResult (b : OperationDAGBuilder) (dst : Parameter) (src : VariableBinding) :
    Except Fault OperationDAGBuilder := do
  let (b, dstName) ← b.getVariableName dst
  if b.isDeclared dstName then return b.bind dstName src
  else throw (.wasNotDeclared dstName)

/-- Connects a parameter to the operation node that was created last. -/
def connectOperandToNode (operation : Operation) (currentOperation : Nat) (b : OperationDAGBuilder)
    (parameter : Parameter × Nat) : Except Fault OperationDAGBuilder := do
  let (var, operandIndex) := parameter
  if operandIndex > operation.operandCount then throw (.noOperandNumber operandIndex)
  else if operation.isInput operandIndex then
    let (b, srcNode) ← b.getBinding var
    match srcNode.node with
    | none => throw (.sourceNodeIsNULL operandIndex)
    | some node => return b.connectNodes ⟨node, currentOperation, srcNode.operand, operandIndex⟩
  else if operation.isOutput operandIndex then b.assignResult var ⟨some currentOperation, operandIndex⟩
  else throw (.noOperandNumber operandIndex)

variable (opPool : String → Option Operation)

def parseNode (b : OperationDAGBuilder) : Statement → Except Fault OperationDAGBuilder
  | .declaration names => names.foldlM declareVariable b
  | .assignment dst src => b.assignVariable dst src
  | .EXEC_OPERATION name parameters =>
    match opPool name with
    | none => .error (.operationDoesNotExist name)
    | some operation =>
      (parameters.zipIdx 1).foldlM (connectOperandToNode operation b.dag.nodes.length) (b.addNode (.operation operation))

/-- Creates the output terminal of an operand that has no terminal. -/
def createTerminal (operation : Operation) (b : OperationDAGBuilder) (io : Nat × Option Nat) :
    Except Fault OperationDAGBuilder :=
  match io.2 with
  | some _ => .ok b
  | none =>
    let (b, ioVar) := b.getIOBinding io.1
    if io.1 > operation.operandCount then .error (.noResultOperandNumber io.1)
    else
      match ioVar.node with
      | none => .error .nullNode
      | some node =>
        .ok (((b.addNode (.terminal io.1)).connectNodes ⟨node, b.dag.nodes.length, ioVar.operand, 1⟩).setTerminal io.1
          b.dag.nodes.length)

def sortedIOVariables (b : OperationDAGBuilder) : List (Nat × Option Nat) :=
  b.ioVariables.insertionSort fun a b => ioName a.1 ≤ ioName b.1

/-- The outputs that no statement refers to. -/
def unwrittenOutputs (operation : Operation) (b : OperationDAGBuilder) : List Nat :=
  ((List.range operation.numberOfOutputs).map (· + operation.numberOfInputs + 1)).filter fun operand =>
    !b.isReferenced operand

def finalize (operation : Operation) (b : OperationDAGBuilder) : Except Fault OperationDAGBuilder := do
  let built ← b.sortedIOVariables.foldlM (createTerminal operation) b
  if b.unwrittenOutputs operation ≠ [] then throw (.doesNotWriteToOutputs (b.unwrittenOutputs operation))
  return built

def parse (operation : Operation) (statements : List Statement) : Except Fault OperationDAG := do
  let b ← statements.foldlM (parseNode opPool) new
  let b ← b.finalize operation
  return b.dag

end OperationDAGBuilder

end Tce.OSAL
