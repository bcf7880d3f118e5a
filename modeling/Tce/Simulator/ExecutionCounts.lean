import Mathlib.Algebra.Order.Ring.Nat
import Mathlib.Data.Finset.Basic
import Tce.Base.Counters
import Tce.Base.OrderedMap

/-!
# Execution counts of moves

The compiled simulator runs a basic block at a time and counts the executions of the block,
and those of a move by itself only where that does not tell them. The interpretive simulator
counts every move whenever its instruction is executed.
-/

namespace Tce.CompiledSimulation

structure Move where
  isUnconditional : Bool
  deriving DecidableEq, Repr

/-- The instructions are at consecutive addresses. Moves are numbered in their order. -/
structure Program where
  startAddress : Nat
  entryAddress : Nat
  instructions : List (List Move)

namespace Program

def lastInstruction (p : Program) : Nat := p.startAddress + p.instructions.length - 1

/-- The moves of the instruction at the address. -/
def movesAt (p : Program) (address : Nat) : List Move :=
  if address < p.startAddress then [] else (p.instructions[address - p.startAddress]?).getD []

def moveCount (p : Program) : Nat := (p.instructions.map List.length).sum

/-- The number of the first move of an instruction. -/
def firstMove (p : Program) (instruction : Nat) : Nat := ((p.instructions.take instruction).map List.length).sum

/-- The number of a move of the instruction at the address. -/
def moveNumber (p : Program) (address i : Nat) : Nat := p.firstMove (address - p.startAddress) + i

end Program

/-! ## Basic blocks -/

/-- A block with more instructions than a simulation function may have is split. A branch and
its delay slots stay in one block. -/
def splitBlock (maxInstructions delaySlots blockStart last : Nat) : List (Nat × Nat) :=
  if blockStart < last then
    let blockEnd := min (blockStart + maxInstructions) last
    let blockEnd := if last ≤ blockEnd + delaySlots then last else blockEnd
    (blockStart, blockEnd) :: splitBlock maxInstructions delaySlots (blockEnd + 1) last
  else if blockStart ≤ last then [(blockStart, last)]
  else []
termination_by last + 1 - blockStart
decreasing_by
  split <;> omega

/-- The blocks that the normal blocks of the control flow graphs are split to. -/
def findBasicBlocks (maxInstructions delaySlots : Nat) (nodes : List (Nat × Nat)) : List (Nat × Nat) :=
  nodes.flatMap fun node =>
    if node.2 - node.1 > maxInstructions then splitBlock maxInstructions delaySlots node.1 node.2 else [node]

/-- The starts of the blocks by their last addresses. -/
def bbEnds (blocks : List (Nat × Nat)) : List (Nat × Nat) :=
  (blocks.map fun b => (b.2, b.1)).foldl (fun m e => OrderedMap.set m e.1 e.2) []

/-- What the code is generated from. -/
structure Code where
  program : Program
  /-- The first and last addresses of the blocks. -/
  blocks : List (Nat × Nat)
  exitPoints : Finset Nat

namespace Code

/-- The start of the block of the instruction of the number. -/
def basicBlockStart (c : Code) (instruction : Nat) : Option Nat :=
  (OrderedMap.lowerBound (bbEnds c.blocks) instruction).map (·.2)

def isBlockEnd (c : Code) (address : Nat) : Bool := (OrderedMap.find (bbEnds c.blocks) address).isSome

end Code

/-! ## The compiled simulator -/

structure Engine where
  moveExecCounts : List Nat
  bbExecCounts : List Nat
  cycleCount : Nat
  isFinished : Bool

namespace Engine

/-- The constructor. The table of the blocks is as long as the program is from its entry. -/
def new (p : Program) : Engine where
  moveExecCounts := List.replicate p.moveCount 0
  bbExecCounts := List.replicate (p.lastInstruction + 1 - p.entryAddress) 0
  cycleCount := 0
  isFinished := false

/-- The numbers of the moves that are counted by themselves: those whose guard is true, and
unguarded moves of exit points. -/
def countedMoves (c : Code) (guards : Nat → Bool) (address : Nat) : List Nat :=
  ((List.range (c.program.movesAt address).length).filter fun i =>
    match (c.program.movesAt address)[i]? with
    | some move => if move.isUnconditional then address ∈ c.exitPoints else guards i
    | none => false).map (c.program.moveNumber address)

/-- At the end of a block its executions are counted. -/
def countBlock (c : Code) (bbExecCounts : List Nat) (address : Nat) : Option (List Nat) :=
  if c.isBlockEnd address then
    (c.basicBlockStart (address - c.program.startAddress)).bind (Counters.increment bbExecCounts)
  else some bbExecCounts

/-- The code of one instruction, with the guards read in its cycle. An access outside of a
table is none. -/
def executeInstruction (c : Code) (guards : Nat → Nat → Bool) (e : Engine) (address : Nat) : Option Engine := do
  let moveExecCounts ← (countedMoves c (guards e.cycleCount) address).foldlM Counters.increment e.moveExecCounts
  let bbExecCounts ← countBlock c e.bbExecCounts address
  some ⟨moveExecCounts, bbExecCounts, e.cycleCount + 1, address ∈ c.exitPoints⟩

/-- The addresses of the block that begins at the address. -/
def addressesOf (c : Code) (blockStart : Nat) : List Nat :=
  match OrderedMap.lowerBound (bbEnds c.blocks) blockStart with
  | some e => List.range' blockStart (e.1 + 1 - blockStart)
  | none => []

/-- The function of a block returns at an exit point. -/
def simulateBlock (c : Code) (guards : Nat → Nat → Bool) (e : Engine) (blockStart : Nat) : Option Engine :=
  (addressesOf c blockStart).foldlM
    (fun e address => if e.isFinished then some e else e.executeInstruction c guards address) e

/-- The blocks that are jumped to one after the other. -/
def run (c : Code) (guards : Nat → Nat → Bool) (e : Engine) (targets : List Nat) : Option Engine :=
  targets.foldlM (fun e blockStart => if e.isFinished then some e else e.simulateBlock c guards blockStart) e

/-- The count that is given for a move. -/
def moveExecutionCount (c : Code) (e : Engine) (moveNumber address : Nat) (move : Move) : Option Nat :=
  if move.isUnconditional ∧ address ∉ c.exitPoints then
    (c.basicBlockStart (address - c.program.startAddress)).bind fun bbStart => e.bbExecCounts[bbStart]?
  else e.moveExecCounts[moveNumber]?

end Engine

/-! ## The interpretive simulator -/

structure Interpreter where
  /-- The count of a move by the address of its instruction and its place there. -/
  executionCount : Nat → Nat → Nat
  clockCount : Nat
  isFinished : Bool

namespace Interpreter

def new : Interpreter := ⟨fun _ _ => 0, 0, false⟩

/-- Whether the move of the instruction at the address is executed. -/
def executes (p : Program) (guards : Nat → Bool) (pc address i : Nat) : Bool :=
  match (p.movesAt address)[i]? with
  | some move => address = pc && (move.isUnconditional || guards i)
  | none => false

def simulateCycle (c : Code) (guards : Nat → Nat → Bool) (s : Interpreter) (pc : Nat) : Interpreter where
  executionCount address i :=
    s.executionCount address i + if executes c.program (guards s.clockCount) pc address i then 1 else 0
  clockCount := s.clockCount + 1
  isFinished := pc ∈ c.exitPoints

theorem executionCount_simulateCycle (c : Code) (guards : Nat → Nat → Bool) (s : Interpreter) (pc address i : Nat) :
    (s.simulateCycle c guards pc).executionCount address i =
      s.executionCount address i + if executes c.program (guards s.clockCount) pc address i then 1 else 0 := rfl

/-- The program counters of the cycles. -/
def run (c : Code) (guards : Nat → Nat → Bool) (s : Interpreter) (pcs : List Nat) : Interpreter :=
  pcs.foldl (fun s pc => if s.isFinished then s else s.simulateCycle c guards pc) s

end Interpreter

end Tce.CompiledSimulation
