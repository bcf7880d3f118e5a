import Tce.PIG.InstructionWord

/-!
# Program images

The bit vector of a program, to which the compressor plugin adds one instruction
after another. A reference to an instruction is a table of the parts of the vector
that hold its address; it is fixed when both instructions are known, by `pushBack`
or by `fixInstructionAddress`. Indices are unsigned integers of 32 bits.
-/

namespace Tce.PIG

/-- `MathTools::requiredBits`. -/
def requiredBits (number : Nat) : Nat := if number = 0 then 1 else number.log2 + 1

/-- A part of the vector that holds bits of an address. In a slot of a long immediate
it is the bits of the address from `limmRightIndex` to `limmLeftIndex`. -/
structure IndexBound where
  slotStartIndex : Nat
  slotEndIndex : Nat
  isLimmEncoded : Bool
  limmWidth : Nat
  limmLeftIndex : Nat
  limmRightIndex : Nat
  deriving DecidableEq, Repr

abbrev IndexBoundTable := List IndexBound

inductive ImageFailure where
  | outOfRange
  /-- A failed assertion, an index outside the vector or an undefined shift. -/
  | fault
  deriving DecidableEq, Repr

namespace IndexBound

def incrIndices (increment : Nat) (b : IndexBound) : IndexBound :=
  { b with
    slotStartIndex := (b.slotStartIndex + increment) % 2 ^ 32
    slotEndIndex := (b.slotEndIndex + increment) % 2 ^ 32 }

def slotWidth (b : IndexBound) : Nat := b.slotEndIndex + 1 - b.slotStartIndex

/-- The bit of the value that the loop over the slot starts with. -/
def firstBit (b : IndexBound) (currentBit : Nat) : Nat := if b.isLimmEncoded then b.limmRightIndex else currentBit

def lastBit (b : IndexBound) (stopBit : Nat) : Nat := if b.isLimmEncoded then b.limmLeftIndex else stopBit

end IndexBound

def availableSize (indexes : IndexBoundTable) : Nat := (indexes.map (·.slotWidth)).sum

/-- The loop of `fixBits` over one slot, from `index` down to `startIndex`. After
index 0 the unsigned index goes on from 2^32 - 1, outside the vector. -/
def writeSlot (value : BitVec 32) (stopBit startIndex : Nat) :
    Nat → Nat → List Bool → Except ImageFailure (List Bool × Nat)
  | 0, currentBit, bits => if 0 < startIndex then .ok (bits, currentBit) else .error .fault
  | index + 1, currentBit, bits =>
    if index + 1 < startIndex then .ok (bits, currentBit)
    else
      match if currentBit ≤ stopBit then bit value currentBit else some false with
      | none => .error .fault
      | some b =>
        if index + 1 < bits.length then
          writeSlot value stopBit startIndex index (currentBit + 1) (bits.set (index + 1) b)
        else .error .fault

/-- The loop of `fixBits` over the bounds, the last one first. -/
def fixSlots (value : BitVec 32) : List IndexBound → Nat → Nat → List Bool → Except ImageFailure (List Bool)
  | [], _, _, bits => .ok bits
  | b :: bounds, currentBit, stopBit, bits =>
    if b.isLimmEncoded ∧ b.limmLeftIndex + 1 ≠ b.limmRightIndex + b.limmWidth then .error .fault
    else do
      let written ← writeSlot value (b.lastBit stopBit) b.slotStartIndex b.slotEndIndex (b.firstBit currentBit) bits
      fixSlots value bounds written.2 (b.lastBit stopBit) written.1

def fixBits (bits : List Bool) (indexes : IndexBoundTable) (value : BitVec 32) :
    Except ImageFailure (List Bool) :=
  if requiredBits value.toNat > availableSize indexes then .error .outOfRange
  else fixSlots value indexes.reverse 0 (requiredBits value.toNat) bits

/-- `fixBits` for some references one after another. -/
def fixAll (bits : List Bool) (references : List (IndexBoundTable × BitVec 32)) : Except ImageFailure (List Bool) :=
  references.foldlM (fun bits r => fixBits bits r.1 r.2) bits

/-- The references are kept in the order they come in; the program keeps them in
the order of addresses in memory. -/
structure InstructionBitVector (I : Type) where
  bits : List Bool
  references : List (I × IndexBoundTable)
  instructionBoundaries : List Nat
  instructionAddresses : I → Option (BitVec 32)

namespace InstructionBitVector
variable {I : Type}

def empty : InstructionBitVector I where
  bits := []
  references := []
  instructionBoundaries := []
  instructionAddresses := fun _ => none

/-- The bits and references of one instruction are added at the end. Its references to
instructions with a known address are fixed. -/
def pushBack (v : InstructionBitVector I) (word : List Bool) (references : List (I × IndexBoundTable)) :
    Except ImageFailure (InstructionBitVector I) := do
  let moved := references.map fun r => (r.1, r.2.map (·.incrIndices v.bits.length))
  let known := references.filterMap fun r => (v.instructionAddresses r.1).map (r.2, ·)
  let bitsCopy ← fixAll word known
  return { v with bits := v.bits ++ bitsCopy, references := v.references ++ moved }

/-- The insertion of `markInstructionStartingPoint` before the first greater point. -/
def insertBoundary (position : Nat) : List Nat → Except ImageFailure (List Nat)
  | [] => .error .fault
  | point :: points =>
    if point > position then .ok (position :: point :: points)
    else if point = position then .ok (point :: points)
    else (insertBoundary position points).map (point :: ·)

def markInstructionStartingPoint (v : InstructionBitVector I) (position : Nat) :
    Except ImageFailure (InstructionBitVector I) :=
  match v.instructionBoundaries.getLast? with
  | none => .ok { v with instructionBoundaries := [position] }
  | some back =>
    if back < position then .ok { v with instructionBoundaries := v.instructionBoundaries ++ [position] }
    else (insertBoundary position v.instructionBoundaries).map fun points =>
      { v with instructionBoundaries := points }

variable [DecidableEq I]

/-- The first address of an instruction is kept, but its references get the new one. -/
def fixInstructionAddress (v : InstructionBitVector I) (instruction : I) (address : BitVec 32) :
    Except ImageFailure (InstructionBitVector I) := do
  let referring := (v.references.filter (·.1 = instruction)).map fun r => (r.2, address)
  let bits ← fixAll v.bits referring
  return { v with
    bits := bits
    instructionAddresses := fun i =>
      if i = instruction then some ((v.instructionAddresses i).getD address) else v.instructionAddresses i }

end InstructionBitVector

/-- What `addInstruction` is given: an instruction and the bits and references of its word. -/
structure Added (I : Type) where
  instruction : I
  word : List Bool
  references : List (I × IndexBoundTable)

/-- The memory of the plugin: the width of its unit, where it starts, and the
instructions that start a unit. -/
structure ImageLayout (I : Type) where
  mau : Nat
  addressSpaceOffset : Nat
  startsAtBeginningOfMAU : I → Bool
  mau_pos : 0 < mau

namespace ImageLayout
variable {I : Type} [DecidableEq I] (m : ImageLayout I)

def nextAddressablePositionFrom (position : Nat) : Nat :=
  if position % m.mau = 0 then position else (position + m.mau - position % m.mau) % 2 ^ 32

def instructionPosition (instruction : I) (firstFree : Nat) : Nat :=
  if m.startsAtBeginningOfMAU instruction then m.nextAddressablePositionFrom firstFree else firstFree

def memoryAddress (position : Nat) : BitVec 32 := BitVec.ofNat 32 (m.addressSpaceOffset + position / m.mau)

def addInstruction (v : InstructionBitVector I) (a : Added I) : Except ImageFailure (InstructionBitVector I) := do
  let firstFree := v.bits.length % 2 ^ 32
  let position := m.instructionPosition a.instruction firstFree
  let v := { v with bits := v.bits ++ List.replicate (position - firstFree) false }
  let v ← v.pushBack a.word a.references
  let v ← v.markInstructionStartingPoint position
  v.fixInstructionAddress a.instruction (m.memoryAddress position)

def addInstructions (added : List (Added I)) : Except ImageFailure (InstructionBitVector I) :=
  added.foldlM m.addInstruction .empty

/-- The image, filled up to a whole number of units. -/
def programBits (v : InstructionBitVector I) : List Bool :=
  let bitCount := m.mau - v.bits.length % m.mau
  v.bits ++ List.replicate (if bitCount = m.mau then 0 else bitCount) false

end ImageLayout

end Tce.PIG
