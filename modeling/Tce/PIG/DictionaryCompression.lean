import Tce.Base.Dictionary
import Tce.PIG.ProgramImage

/-!
# Dictionary compression

Two compressors that put codes in place of the bits of an instruction: one code for
each move slot, or one for the whole instruction. The dictionaries are made from the
instructions of all programs before the first one is compressed. The decompressor
puts together the dictionary entries that the codes of a memory unit select.
-/

namespace Tce.PIG

namespace InstructionField

def controlWidth : InstructionField → Option Nat
  | immediateControlField width => some width
  | _ => none

def registerWidth : InstructionField → Option Nat
  | lImmDstRegisterField width _ => some width
  | _ => none

def immediateSlotWidth : InstructionField → Option Nat
  | immediateSlotField _ width => some width
  | _ => none

def moveSlotWidth : InstructionField → Option Nat
  | moveSlot _ width => some width
  | _ => none

end InstructionField

/-- The child fields by their relative positions, and the widths of the move slots by
their indices. -/
structure BinaryEncoding where
  childFields : List InstructionField
  moveSlots : List Nat
  control : (childFields.filterMap (·.controlWidth)).length ≤ 1
  slots : moveSlots.Perm (childFields.filterMap (·.moveSlotWidth))

namespace BinaryEncoding
variable (bem : BinaryEncoding)

def width : Nat := (bem.childFields.map (·.width)).sum

def immediateControlField : Option Nat := (bem.childFields.filterMap (·.controlWidth)).head?

def firstMoveSlotIndex : Nat :=
  match bem.immediateControlField with
  | none => 0
  | some width => width + (bem.childFields.filterMap (·.registerWidth)).sum

/-- The bits of an instruction. -/
abbrev Word := { bits : List Bool // bits.length = bem.width }

def word (machine : Machine) (other : InstructionField → Option (List Bool)) (instruction : Instruction) :
    Option bem.Word :=
  (bemInstructionBits machine bem.childFields other instruction).attach.map fun bits =>
    ⟨bits.1, length_bemInstructionBits bits.2⟩

end BinaryEncoding

/-- A compressor that has its dictionaries, with the decompressor made for them. -/
structure Compressor where
  mau : Nat
  compress : List Bool → Option (List Bool)
  decompress : List Bool → Option (List Bool)

namespace Compressor
variable (c : Compressor)

def layout (addressSpaceOffset : Nat) (h : 0 < c.mau) : ImageLayout Nat := ⟨c.mau, addressSpaceOffset, fun _ => true, h⟩

/-- The instructions of a program are known by their numbers. -/
def numbered (compressed : List (List Bool)) : List (Added Nat) :=
  compressed.zipIdx.map fun p => ⟨p.2, p.1, []⟩

/-- `addInstructions` of a compressor, for one program. A unit without bits is a
division by zero. -/
def addInstructions (addressSpaceOffset : Nat) (program : List (List Bool)) : Option (InstructionBitVector Nat) :=
  if h : 0 < c.mau then do
    let compressed ← program.mapM c.compress
    ((c.layout addressSpaceOffset h).addInstructions (numbered compressed)).toOption
  else none

end Compressor

namespace MoveSlotDictionary

/-- The sub vector from `begin` to `begin + width - 1`; it throws when it is empty
or not inside the vector. -/
def moveSlot (bits : List Bool) (begin width : Nat) : Option (List Bool) :=
  if width = 0 ∨ bits.length < begin + width then none else some ((bits.drop begin).take width)

def moveSlots (bits : List Bool) : Nat → List Nat → Option (List (List Bool))
  | _, [] => some []
  | begin, width :: widths => do
    let slot ← moveSlot bits begin width
    let slots ← moveSlots bits (begin + width) widths
    return slot :: slots

/-- The entry that a code selects; a dictionary with one entry is a constant. -/
def dictLine (d : List (List Bool)) (code : List Bool) : Option (List Bool) :=
  if 1 < d.length then d[Bits.value code]? else d[0]?

/-- The bits that the dictionaries have for a unit, from the given bit on. -/
def entries (fetchblock : List Bool) : Nat → List (List (List Bool)) → Option (List Bool)
  | _, [] => some []
  | begin, d :: dictionary => do
    let width := requiredBits d.length
    let entry ← dictLine d ((fetchblock.drop begin).take width)
    let rest ← entries fetchblock (begin + width) dictionary
    return entry ++ rest

/-- The code of each slot in the dictionary of the slot. -/
def codes : List (List (List Bool)) → List (List Bool) → Option (List Bool)
  | d :: dictionary, slot :: slots => do
    let code ← Dictionary.code d slot
    let bits ← pushBack code (requiredBits d.length)
    let rest ← codes dictionary slots
    return bits ++ rest
  | _, _ => some []

variable (bem : BinaryEncoding)

def updateDictionary (dictionary : List (List (List Bool))) (bits : List Bool) : Option (List (List (List Bool))) := do
  let slots ← moveSlots bits bem.firstMoveSlotIndex bem.moveSlots
  return List.zipWith Dictionary.add dictionary slots

def createDictionary (programs : List (List (List Bool))) : Option (List (List (List Bool))) :=
  programs.flatten.foldlM (updateDictionary bem) (bem.moveSlots.map fun _ => [])

variable (dictionary : List (List (List Bool)))

def compressedWidth : Nat := (dictionary.map fun d => requiredBits d.length).sum + bem.firstMoveSlotIndex

def compressInstruction (bits : List Bool) : Option (List Bool) := do
  let slots ← moveSlots bits bem.firstMoveSlotIndex bem.moveSlots
  let compressed ← codes dictionary slots
  return bits.take bem.firstMoveSlotIndex ++ compressed

def instructionword (fetchblock : List Bool) : Option (List Bool) := do
  let rest ← entries fetchblock bem.firstMoveSlotIndex dictionary
  return fetchblock.take bem.firstMoveSlotIndex ++ rest

def compressor (programs : List (List (List Bool))) : Option Compressor := do
  let dictionary ← createDictionary bem programs
  return ⟨compressedWidth bem dictionary, compressInstruction bem dictionary, instructionword bem dictionary⟩

end MoveSlotDictionary

namespace InstructionDictionary

/-- The instructions of the compatibility program, if there is one, are added first. -/
def createDictionary (compatibilityProg : List (List Bool)) (programs : List (List (List Bool))) : List (List Bool) :=
  Dictionary.build (compatibilityProg ++ programs.flatten)

def compressInstruction (dictionary : List (List Bool)) (bits : List Bool) : Option (List Bool) := do
  let code ← Dictionary.code dictionary bits
  pushBack code (requiredBits (dictionary.length - 1))

def instructionword (dictionary : List (List Bool)) (fetchblock : List Bool) : Option (List Bool) :=
  dictionary[Bits.value (fetchblock.take (requiredBits (dictionary.length - 1)))]?

def compressor (compatibilityProg : List (List Bool)) (programs : List (List (List Bool))) : Compressor :=
  let dictionary := createDictionary compatibilityProg programs
  ⟨requiredBits dictionary.length, compressInstruction dictionary, instructionword dictionary⟩

end InstructionDictionary

end Tce.PIG
