import Tce.Base.Names
import Tce.OSAL.Operand

/-!
# Operation descriptions

The state that an operation saves and loads. The behavior of an operation and the
graphs that are made of its DAG codes are not part of it.
-/

namespace Tce.OSAL
open Tce.Tools

structure OperationPimpl where
  name : String
  description : String
  inputs : Int
  outputs : Int
  readsMemory : Bool
  writesMemory : Bool
  canTrap : Bool
  hasSideEffects : Bool
  isClocked : Bool
  controlFlowOperation : Bool
  isCall : Bool
  isBranch : Bool
  affects : Finset String
  affectedBy : Finset String
  inputOperands : List Operand
  outputOperands : List Operand
  /-- The codes of the DAGs. -/
  dags : List String

namespace OperationPimpl

/-- The constructor. -/
def new (name : String) : OperationPimpl where
  name := Names.stringToUpper name
  description := ""
  inputs := 0
  outputs := 0
  readsMemory := false
  writesMemory := false
  canTrap := false
  hasSideEffects := false
  isClocked := false
  controlFlowOperation := false
  isCall := false
  isBranch := false
  affects := ∅
  affectedBy := ∅
  inputOperands := []
  outputOperands := []
  dags := []

/-- The description and the clocking stay as they are. -/
def clear (operation : OperationPimpl) : OperationPimpl :=
  { new "" with description := operation.description, isClocked := operation.isClocked }

/-! ## Operands -/

/-- No operand is the null operand. The id is asserted not to be zero. -/
def fetchOperand (operation : OperationPimpl) (id : Int) : Option Operand :=
  (operation.inputOperands ++ operation.outputOperands).find? (·.index = id)

def canSwap (operation : OperationPimpl) (id1 id2 : Int) : Bool :=
  match operation.fetchOperand id1, operation.fetchOperand id2 with
  | some op1, some op2 => op1.canSwap op2
  | _, _ => false

/-- Before the first operand that has a greater index. -/
def insertOperand (operand : Operand) (ops : List Operand) : List Operand :=
  ops.orderedInsert (fun a b => a.index < b.index) operand

/-! ## Loading -/

def loadIn (operation : OperationPimpl) (child : ObjectState) : Option OperationPimpl := do
  let operand ← (Operand.new true 0 .SINT_WORD).loadState child
  if operand.index < 1 ∨ operand.index > operation.inputs then none
  else some { operation with inputOperands := insertOperand operand operation.inputOperands }

def loadOut (operation : OperationPimpl) (child : ObjectState) : Option OperationPimpl := do
  let operand ← (Operand.new false 0 .SINT_WORD).loadState child
  if operand.index ≤ operation.inputs ∨ operand.index > operation.inputs + operation.outputs then none
  else some { operation with outputOperands := insertOperand operand operation.outputOperands }

def loadName (names : Finset String) (child : ObjectState) : Option (Finset String) :=
  (child.stringAttribute "name").map fun name => insert (Names.stringToUpper name) names

def loadChild (operation : OperationPimpl) (child : ObjectState) : Option OperationPimpl :=
  if child.name = "in" then operation.loadIn child
  else if child.name = "out" then operation.loadOut child
  else if child.name = "affects" then
    (child.children.foldlM loadName operation.affects).map fun affects => { operation with affects := affects }
  else if child.name = "affected-by" then
    (child.children.foldlM loadName operation.affectedBy).map fun affectedBy =>
      { operation with affectedBy := affectedBy }
  else if child.name = "trigger-semantics" then
    some { operation with dags := operation.dags ++ [child.stringValue] }
  else none

/-- One run of the loop over the input operands. -/
def fillInput (operation : OperationPimpl) (i : Int) : Option OperationPimpl :=
  if i = 0 then none
  else if (operation.fetchOperand i).isSome then some operation
  else some { operation with inputOperands := insertOperand (Operand.new true i .SINT_WORD) operation.inputOperands }

/-- One run of the loop over the output operands, which constructs them as the other does. -/
def fillOutput (operation : OperationPimpl) (i : Int) : Option OperationPimpl :=
  if i = 0 then none
  else if (operation.fetchOperand i).isSome then some operation
  else some { operation with outputOperands := insertOperand (Operand.new true i .SINT_WORD) operation.outputOperands }

/-- The attributes of the operation itself. -/
def loadAttributes (operation : OperationPimpl) (state : ObjectState) : Option OperationPimpl := do
  let name ← state.stringAttribute "name"
  let description ← state.stringAttribute "description"
  let inputs ← state.intAttribute "inputs"
  let outputs ← state.intAttribute "outputs"
  let canTrap ← state.boolAttribute "trap"
  let hasSideEffects ← state.boolAttribute "side-effects"
  let isClocked ← state.boolAttribute "clocked"
  let controlFlowOperation ← state.boolAttribute "control-flow"
  let isCall ← state.boolAttribute "is-call"
  let isBranch ← state.boolAttribute "is-branch"
  let readsMemory ← state.boolAttribute "reads-memory"
  let writesMemory ← state.boolAttribute "writes-memory"
  some { operation with
    name := Names.stringToUpper name
    description := description
    inputs := inputs
    outputs := outputs
    canTrap := canTrap
    hasSideEffects := hasSideEffects
    isClocked := isClocked
    controlFlowOperation := controlFlowOperation
    isCall := isCall
    isBranch := isBranch
    readsMemory := readsMemory
    writesMemory := writesMemory }

def loadState (operation : OperationPimpl) (state : ObjectState) : Option OperationPimpl := do
  let attributes ← operation.clear.loadAttributes state
  let given ← state.children.foldlM loadChild attributes
  let filled ← (Int.range 1 (attributes.inputs + 1)).foldlM fillInput given
  (Int.range (1 + attributes.inputs) (attributes.inputs + attributes.outputs + 1)).foldlM fillOutput filled

/-! ## Saving -/

def saveName (name : String) : ObjectState := (ObjectState.node "operation" [] []).setAttribute "name" (.text name)

/-- The names that are affected, when there are any. -/
def saveNames (listName : String) (names : Finset String) : List ObjectState :=
  if names.card > 0 then [(ObjectState.node listName [] []).addChildren ((names.sort (· ≤ ·)).map saveName)] else []

def saveIn (operand : Operand) : ObjectState := operand.saveState.setName "in"

def saveOut (operand : Operand) : ObjectState := operand.saveState.setName "out"

def saveTrigger (code : String) : ObjectState := (ObjectState.node "trigger-semantics" [] []).setValue code

def saveState (operation : OperationPimpl) : ObjectState :=
  let root := ObjectState.node "operation" [] []
  let root := root.setAttribute "name" (.text operation.name)
  let root := root.setAttribute "description" (.text operation.description)
  let root := root.setAttribute "inputs" (.int operation.inputs)
  let root := root.setAttribute "outputs" (.int operation.outputs)
  let root := root.setAttribute "trap" (Operand.boolValue operation.canTrap)
  let root := root.setAttribute "side-effects" (Operand.boolValue operation.hasSideEffects)
  let root := root.setAttribute "clocked" (Operand.boolValue operation.isClocked)
  let root := root.setAttribute "control-flow" (Operand.boolValue operation.controlFlowOperation)
  let root := root.setAttribute "is-call" (Operand.boolValue operation.isCall)
  let root := root.setAttribute "is-branch" (Operand.boolValue operation.isBranch)
  let root := root.setAttribute "reads-memory" (Operand.boolValue operation.readsMemory)
  let root := root.setAttribute "writes-memory" (Operand.boolValue operation.writesMemory)
  root.addChildren (saveNames "affected-by" operation.affectedBy ++ saveNames "affects" operation.affects ++
    operation.inputOperands.map saveIn ++ operation.outputOperands.map saveOut ++ operation.dags.map saveTrigger)

end OperationPimpl

end Tce.OSAL
