import Tce.Base.WhileLoop

/-!
# Splitting basic blocks

Basic blocks with calls in the middle are split after each call, and in the second
form of the algorithm also before each instruction that is referred to. The blocks
that are left to look at are a set ordered by the addresses of their objects.
-/

namespace Tce.CFG

inductive EdgePredicate where
  | CFLOW_EDGE_NORMAL
  | CFLOW_EDGE_TRUE
  | CFLOW_EDGE_FALSE
  | CFLOW_EDGE_LOOP_BREAK
  | CFLOW_EDGE_FAKE
  deriving DecidableEq, Repr

inductive EdgeType where
  | CFLOW_EDGE_JUMP
  | CFLOW_EDGE_CALL
  | CFLOW_EDGE_FALLTHROUGH
  deriving DecidableEq, Repr

structure ControlFlowEdge (A : Type) where
  edgePredicate : EdgePredicate
  edgeType : EdgeType
  isBackEdge : Bool
  tail : A
  head : A
  deriving DecidableEq, Repr

structure Instruction where
  name : String
  hasCall : Bool
  /-- Whether the reference manager has a reference to it. -/
  hasReference : Bool
  deriving DecidableEq, Repr

structure BasicBlock where
  startAddress : Nat
  instructions : List Instruction
  deriving DecidableEq, Repr

namespace BasicBlock

def instructionCount (bb : BasicBlock) : Nat := bb.instructions.length

/-- The index of the instruction at an address, none when the address is not in the block. -/
def instructionAt (bb : BasicBlock) (address : Nat) : Option Nat :=
  if bb.startAddress ≤ address ∧ address - bb.startAddress < bb.instructionCount then some (address - bb.startAddress)
  else none

end BasicBlock

inductive CFGFault where
  | KeyNotFound
  deriving DecidableEq, Repr

/-- A graph of the block objects at given addresses. -/
structure ControlFlowGraph (A : Type) where
  nodes : List A
  basicBlock : A → BasicBlock
  edges : List (ControlFlowEdge A)

/-! ## Where a block is split -/

/-- A call that is not in the last instruction. -/
def splitsAfterCall (instructions : List Instruction) (index : Nat) : Bool :=
  ((instructions[index]?).any (·.hasCall)) && index + 1 != instructions.length

/-- The index of the first instruction of the new block, for an instruction at the address `ii` that is looked at. -/
def callSplit (instructions : List Instruction) (_ii index : Nat) : Option Nat :=
  if splitsAfterCall instructions index then some (index + 1) else none

def callOrReferenceSplit (instructions : List Instruction) (ii index : Nat) : Option Nat :=
  if splitsAfterCall instructions index then some (ii + 1)
  else if ii != 0 && (instructions[index]?).any (·.hasReference) then some ii
  else none

/-- Where the first of the addresses is that the block is split at. -/
def findSplit (split : List Instruction → Nat → Nat → Option Nat) (bb : BasicBlock) :
    List Nat → Except CFGFault (Option Nat)
  | [] => .ok none
  | ii :: addresses =>
    match bb.instructionAt ii with
    | none => .error .KeyNotFound
    | some index =>
      match split bb.instructions ii index with
      | some newIndex => .ok (some newIndex)
      | none => findSplit split bb addresses

/-! ## The worklist -/

namespace ControlFlowGraph
variable {A : Type} [LinearOrder A]

def callEdge (tail head : A) : ControlFlowEdge A := ⟨.CFLOW_EDGE_NORMAL, .CFLOW_EDGE_CALL, false, tail, head⟩

/-- The edges that go out from a block go out from the new one. -/
def moveOutEdges (edges : List (ControlFlowEdge A)) (source destination : A) : List (ControlFlowEdge A) :=
  edges.filter (·.tail ≠ source) ++ (edges.filter (·.tail = source)).map fun e => { e with tail := destination }

/-- The instructions from the index on go to a new block that is at the address `newbb`. -/
def splitBasicBlockAtIndex (g : ControlFlowGraph A) (bbn newbbn : A) (index : Nat) : ControlFlowGraph A where
  nodes := g.nodes ++ [newbbn]
  basicBlock := Function.update
    (Function.update g.basicBlock newbbn ⟨0, (g.basicBlock bbn).instructions.drop index⟩)
    bbn { g.basicBlock bbn with instructions := (g.basicBlock bbn).instructions.take index }
  edges := moveOutEdges g.edges bbn newbbn ++ [callEdge bbn newbbn]

/-- The graph and the blocks left to look at, until an exception. -/
abbrev State (A : Type) := Except CFGFault (ControlFlowGraph A × List A)

def blocksLeft : State A → Bool
  | .ok (_, bbsToHandle) => !bbsToHandle.isEmpty
  | .error _ => false

/-- What is taken out of the set when the first block has been looked at. -/
inductive Erase where
  | begin
  | block

def Erase.erase : Erase → List A → A → List A
  | .begin, bbsToHandle, _ => bbsToHandle.tail
  | .block, bbsToHandle, bbn => bbsToHandle.erase bbn

variable (split : List Instruction → Nat → Nat → Option Nat) (erase : Erase) (allocate : A → A)

/-- The new block of a block that is split is at an address that `allocate` gives. -/
def handleFirst : State A → State A
  | .error fault => .error fault
  | .ok (g, []) => .ok (g, [])
  | .ok (g, bbn :: bbsToHandle) =>
    match findSplit split (g.basicBlock bbn) (List.range (g.basicBlock bbn).instructionCount) with
    | .error fault => .error fault
    | .ok none => .ok (g, erase.erase (bbn :: bbsToHandle) bbn)
    | .ok (some index) =>
      .ok (g.splitBasicBlockAtIndex bbn (allocate bbn) index,
        erase.erase ((bbn :: bbsToHandle).orderedInsert (· ≤ ·) (allocate bbn)) bbn)

/-- `none` when the loop has not ended after `fuel` tests. -/
def handleAll (fuel : Nat) (g : ControlFlowGraph A) : Option (Except CFGFault (ControlFlowGraph A)) :=
  (WhileLoop.run blocksLeft (handleFirst split erase allocate) fuel
    (.ok (g, g.nodes.insertionSort (· ≤ ·)))).map fun s => s.map (·.1)

/-- Erases the first of the blocks that are left, which may be the new one. -/
def splitBasicBlocksWithCalls : Nat → ControlFlowGraph A → Option (Except CFGFault (ControlFlowGraph A)) :=
  handleAll callSplit .begin allocate

def splitBasicBlocksWithCallsAndRefs : Nat → ControlFlowGraph A → Option (Except CFGFault (ControlFlowGraph A)) :=
  handleAll callOrReferenceSplit .block allocate

end ControlFlowGraph

end Tce.CFG
