import Tce.Base.OrderedMap
import Tce.POM.Program

/-!
# Copying a program

`copyFrom` adds the procedures again, one by one, and then looks up the address of every
referenced instruction of the source in the copy. Data memories, the start address, the
entry and the labels follow. What is only copied is left open.
-/

namespace Tce.POM.Copying

variable {ρ : Type}

/-- A `TerminalProgramOperation` is an instruction address as well, but has no reference. -/
inductive Terminal (ρ : Type) where
  | instructionReference (ins : InstructionId)
  | programOperation (operation : ρ)
  | other (terminal : ρ)

structure Move (ρ : Type) where
  source : Terminal ρ
  rest : ρ

structure Immediate (ρ : Type) where
  value : Terminal ρ
  destination : ρ

structure Instruction (ρ : Type) where
  id : InstructionId
  moves : List (Move ρ)
  immediates : List (Immediate ρ)
  rest : ρ

structure Procedure (ρ : Type) where
  name : String
  start : InstructionAddress
  instructions : List (Instruction ρ)

inductive DataDefinition (ρ : Type) where
  | instructionAddress (size : Nat) (destination : InstructionId)
  | other (definition : ρ)

/-- The definitions are in a map from their start addresses. -/
structure DataMemory (ρ : Type) where
  addressSpace : ρ
  dataDefs : List (Nat × DataDefinition ρ)

/-- What a code label is the address of; a procedure is given by its index. -/
inductive Labelled where
  | instruction (ins : InstructionId)
  | procedure (index : Nat)

@[ext]
structure Program (ρ : Type) where
  start : InstructionAddress
  entry : InstructionAddress
  procedures : List (Procedure ρ)
  dataMems : List (DataMemory ρ)
  dataLabels : List (String × ρ)
  codeLabels : List (String × Labelled)

section Addresses

def Procedure.endAddress (p : Procedure ρ) : InstructionAddress := p.start + BitVec.ofNat 32 p.instructions.length

def Procedure.instructionAt (p : Procedure ρ) (address : InstructionAddress) : Option InstructionId :=
  let index := address - p.start
  if 0 ≤ index.toInt then p.instructions[index.toNat]?.map (·.id) else none

/-- The address of the instruction in its procedure. -/
def Procedure.address (p : Procedure ρ) (i : InstructionId) : Option InstructionAddress :=
  (p.instructions.findIdx? (·.id = i)).map fun j => p.start + BitVec.ofNat 32 j

def instructionAt (procedures : List (Procedure ρ)) (address : InstructionAddress) : Option InstructionId :=
  (procedures.find? fun p => decide (p.start ≤ address ∧ address < p.endAddress)).bind (·.instructionAt address)

namespace Program
variable (P : Program ρ)

def address (i : InstructionId) : Option InstructionAddress := P.procedures.findSome? (·.address i)

/-- `CodeLabel::address`. -/
def labelAddress : Labelled → Option InstructionAddress
  | .instruction i => P.address i
  | .procedure index => P.procedures[index]?.map (·.start)

/-- Procedures below the new start address are moved up to it. -/
def setStartAddress (start : InstructionAddress) : Program ρ :=
  match P.procedures with
  | [] => { P with start := start }
  | first :: _ =>
    if first.start < start then
      { P with
        start := start
        procedures := P.procedures.map fun p => { p with start := p.start + (start - first.start) } }
    else { P with start := start }

end Program

end Addresses

section CopyFrom

/-- Copies of instructions are new objects. -/
def copyInstructions (next : Nat) : List (Instruction ρ) → List (Instruction ρ)
  | [] => []
  | ins :: instructions => { ins with id := next } :: copyInstructions (next + 1) instructions

/-- A procedure that is added starts at the end of the last one; all its instructions are added
before the next procedure. -/
def copyProcedures (start : InstructionAddress) (next : Nat) : List (Procedure ρ) → List (Procedure ρ)
  | [] => []
  | p :: procedures =>
    { p with start := start, instructions := copyInstructions next p.instructions } ::
      copyProcedures (start + BitVec.ofNat 32 p.instructions.length) (next + p.instructions.length) procedures

section Fixing
variable (source : Program ρ) (procedures : List (Procedure ρ))

/-- The instruction of the copy at the address that the instruction has in the source. -/
def newReference (i : InstructionId) : Option InstructionId := (source.address i).bind (instructionAt procedures)

def fixTerminal : Terminal ρ → Option (Terminal ρ)
  | .instructionReference i => (newReference source procedures i).map .instructionReference
  | .programOperation _ => none
  | .other terminal => some (.other terminal)

def fixMove (m : Move ρ) : Option (Move ρ) :=
  (fixTerminal source procedures m.source).map fun t => { m with source := t }

def fixImmediate (m : Immediate ρ) : Option (Immediate ρ) :=
  (fixTerminal source procedures m.value).map fun t => { m with value := t }

def fixInstruction (ins : Instruction ρ) : Option (Instruction ρ) :=
  (ins.moves.mapM (fixMove source procedures)).bind fun moves =>
    (ins.immediates.mapM (fixImmediate source procedures)).map fun immediates =>
      { ins with moves := moves, immediates := immediates }

def fixProcedure (p : Procedure ρ) : Option (Procedure ρ) :=
  (p.instructions.mapM (fixInstruction source procedures)).map fun instructions =>
    { p with instructions := instructions }

def fixInstructionReferences : Option (List (Procedure ρ)) := procedures.mapM (fixProcedure source procedures)

def copyDefinition : DataDefinition ρ → Option (DataDefinition ρ)
  | .instructionAddress size i => (newReference source procedures i).map (.instructionAddress size)
  | .other definition => some (.other definition)

def copyDataMemory (m : DataMemory ρ) : Option (DataMemory ρ) :=
  (m.dataDefs.mapM fun d => (copyDefinition source procedures d.2).map fun e => (d.1, e)).map fun defs =>
    { m with dataDefs := defs.foldl (fun defs d => OrderedMap.set defs d.1 d.2) [] }

/-- A label whose name is taken is refused. -/
def addLabel {α : Type} (labels : List (String × α)) (l : String × α) : Option (List (String × α)) :=
  if labels.any (·.1 = l.1) then none else some (labels ++ [l])

/-- Every label becomes one of an instruction. -/
def relocateLabel (l : String × Labelled) : Option (String × Labelled) :=
  ((source.labelAddress l.2).bind (instructionAt procedures)).map fun i => (l.1, .instruction i)

def copyAndRelocate : Option (List (String × ρ) × List (String × Labelled)) :=
  (source.dataLabels.foldlM addLabel []).bind fun dataLabels =>
    (source.codeLabels.foldlM
      (fun labels l => (relocateLabel source procedures l).bind (addLabel labels)) []).map fun codeLabels =>
        (dataLabels, codeLabels)

end Fixing

/-- The copy in the target, whose previous contents are deleted; `next` is the first identity that is
free. References of the source lead to its own instructions. -/
def copyInto (target source : Program ρ) (next : Nat) : Option (Program ρ) :=
  (fixInstructionReferences source (copyProcedures target.start next source.procedures)).bind fun procedures =>
    (source.dataMems.mapM (copyDataMemory source procedures)).bind fun dataMems =>
      let P := Program.setStartAddress
        { target with procedures := procedures, dataMems := dataMems, dataLabels := [], codeLabels := [] } source.start
      (copyAndRelocate source P.procedures).map fun labels =>
        { P with entry := source.entry, dataLabels := labels.1, codeLabels := labels.2 }

/-- The programs that exist, and the first identity that no instruction has. -/
structure Heap (ρ : Type) where
  programs : Nat → Option (Program ρ)
  next : Nat

/-- A program that is copied to itself is deleted first, and then its deleted scope is read. -/
def Heap.copyFrom (h : Heap ρ) (target source : Nat) : Option (Program ρ) :=
  if target = source then none
  else (h.programs target).bind fun T => (h.programs source).bind fun S => copyInto T S h.next

/-- `Program::copy`: into a new program with the same start and entry address. -/
def Program.copy (S : Program ρ) (next : Nat) : Option (Program ρ) :=
  copyInto { start := S.start, entry := S.entry, procedures := [], dataMems := [], dataLabels := [], codeLabels := [] }
    S next

end CopyFrom

end Tce.POM.Copying
