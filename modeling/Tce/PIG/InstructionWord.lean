import Tce.Base.Bits
import Tce.PIG.InstructionTemplate

/-!
# Instruction words

The bits of an instruction as the compressor plugin makes them from the fields of
the binary encoding, with the long immediates of the instruction and the register
fields of their destinations. An operation that throws, or that C++ leaves
undefined, gives no bits.
-/

namespace Tce.PIG

/-- `MathTools::bit`; a shift by the width of the integer or more is undefined. -/
def bit (integer : BitVec 32) (index : Nat) : Option Bool :=
  if index < 32 then some (integer.toNat.testBit index) else none

/-- `CodeCompressorPlugin::addBits`: `count` bits of the number, from `leftmostBit` down. -/
def addBits (number : BitVec 32) (rightmostBit : Nat) : Nat → Option (List Bool)
  | 0 => some []
  | count + 1 => do
    let b ← bit number (rightmostBit + count)
    let rest ← addBits number rightmostBit count
    return b :: rest

/-- `BitVector::pushBack` of a number. -/
def pushBack (integer : Nat) (size : Nat) : Option (List Bool) := addBits (BitVec.ofNat 32 integer) 0 size

structure Immediate where
  value : BitVec 32
  destination : String
  index : Nat
  deriving DecidableEq, Repr

structure Instruction where
  template : InstructionTemplate
  immediates : List Immediate

structure Machine where
  instructionTemplates : List InstructionTemplate
  immediateUnits : List String
  numberOfRegisters : String → Nat

/-- A child field of the binary encoding. A destination register field has the
immediate unit it is used for in each template that uses it. -/
inductive InstructionField where
  | immediateControlField (width : Nat)
  | moveSlot (name : String) (width : Nat)
  | immediateSlotField (name : String) (width : Nat)
  | lImmDstRegisterField (width : Nat) (destinationMap : List (String × String))
  deriving DecidableEq, Repr

namespace InstructionField

def width : InstructionField → Nat
  | immediateControlField width => width
  | moveSlot _ width => width
  | immediateSlotField _ width => width
  | lImmDstRegisterField width _ => width

/-- The name of a move slot or an immediate slot. -/
def slotName : InstructionField → Option String
  | moveSlot name _ => some name
  | immediateSlotField name _ => some name
  | _ => none

end InstructionField

/-- `LImmDstRegisterField::immediateUnit`: none when it throws. -/
def immediateUnit (destinationMap : List (String × String)) (instructionTemplate : String) : Option String :=
  destinationMap.lookup instructionTemplate

section Encoding
variable (machine : Machine) (instruction : Instruction)

/-- An instruction without immediates has the first empty template of the machine. -/
def instructionTemplate : Option InstructionTemplate :=
  if instruction.immediates.isEmpty then machine.instructionTemplates.find? (·.isEmpty)
  else some instruction.template

/-- The loop over the slots of a destination from the right, up to the named one. -/
def rightmostBitToEncode (t : InstructionTemplate) (dstUnit slotName : String) : Nat → Nat
  | 0 => 0
  | i + 1 =>
    match t.slotOfDestination dstUnit i with
    | none => 0
    | some slotOfImm =>
      if slotOfImm ≠ slotName then t.supportedWidth slotOfImm + rightmostBitToEncode t dstUnit slotName i
      else 0

/-- The bits of the immediate that belong to the slot, after zeros that fill the slot. -/
def encodePart (t : InstructionTemplate) (slotName : String) (slotWidth : Nat) (imm : Immediate) :
    Option (List Bool) := do
  let dstUnit ← t.destinationOfSlot slotName
  let rightmost := rightmostBitToEncode t dstUnit slotName (t.numberOfSlots dstUnit)
  let limmSlotWidth := t.supportedWidth slotName
  if 0 < limmSlotWidth ∧ limmSlotWidth ≤ slotWidth then
    let value ← addBits imm.value rightmost limmSlotWidth
    return List.replicate (slotWidth - limmSlotWidth) false ++ value
  else none

/-- The loop of `encodeLongImmediate` over the immediates of the instruction. -/
def encodeLongImmediate (t : InstructionTemplate) (slotName : String) (slotWidth : Nat) :
    List Immediate → Option (List Bool)
  | [] => none
  | imm :: immediates =>
    if t.usesSlot slotName then encodePart t slotName slotWidth imm
    else encodeLongImmediate t slotName slotWidth immediates

/-- The loop of `addBitsForDstRegisterField` over the immediates of the instruction. -/
def addBitsForDstRegisterField (t : InstructionTemplate) (width : Nat) (destinationMap : List (String × String)) :
    List Immediate → Option (List Bool)
  | [] => pushBack 0 width
  | imm :: immediates =>
    if machine.numberOfRegisters imm.destination = 1 then
      addBitsForDstRegisterField t width destinationMap immediates
    else do
      let iuName ← immediateUnit destinationMap t.name
      if imm.destination = iuName then pushBack imm.index width
      else addBitsForDstRegisterField t width destinationMap immediates

/-- The bits of one field. The control field and the moves have their own encodings. -/
def addBitsForField (other : InstructionField → Option (List Bool)) (field : InstructionField) :
    Option (List Bool) :=
  match field, instructionTemplate machine instruction with
  | .immediateControlField _, _ => other field
  | .moveSlot name width, some t =>
    if t.usesSlot name then encodeLongImmediate instruction.template name width instruction.immediates
    else other field
  | .moveSlot _ _, none => if machine.immediateUnits.isEmpty then other field else none
  | .immediateSlotField name width, some t =>
    if t.usesSlot name then encodeLongImmediate instruction.template name width instruction.immediates
    else pushBack 0 width
  | .immediateSlotField _ _, none => none
  | .lImmDstRegisterField width destinationMap, _ =>
    addBitsForDstRegisterField machine instruction.template width destinationMap instruction.immediates

end Encoding

/-- The bits of the fields, the leftmost field first; each has the width of its field. -/
def fieldBits (encode : InstructionField → Option (List Bool)) : List InstructionField → Option (List Bool)
  | [] => some []
  | field :: fields => do
    let bits ← encode field
    let rest ← fieldBits encode fields
    if bits.length = field.width then some (bits ++ rest) else none

/-- The child fields are numbered from the right. -/
def bemInstructionBits (machine : Machine) (childFields : List InstructionField)
    (other : InstructionField → Option (List Bool)) (instruction : Instruction) : Option (List Bool) :=
  fieldBits (addBitsForField machine instruction other) childFields.reverse

section Bits
open Bits

theorem addBits_eq (v : BitVec 32) (low n : Nat) :
    addBits v low n = if n = 0 ∨ low + n ≤ 32 then some (window v.toNat low n) else none := by
  induction n with
  | zero => simp [addBits, window]
  | succ n ih =>
    have hn : n + 1 ≠ 0 := by omega
    by_cases h : low + (n + 1) ≤ 32
    · have hbit : low + n < 32 := by omega
      have hrest : n = 0 ∨ low + n ≤ 32 := by omega
      simp [addBits, bit, hbit, ih, hrest, h, window]
    · have hbit : ¬low + n < 32 := by omega
      simp [addBits, bit, hbit, h]

theorem pushBack_eq (v n : Nat) : pushBack v n = if n ≤ 32 then some (bits v n) else none := by
  have hwindow (h : n ≤ 32) : window (BitVec.ofNat 32 v).toNat 0 n = window v 0 n := by
    apply window_congr
    intro i hi
    have hlt : 0 + i < 32 := by omega
    simp only [BitVec.toNat_ofNat, Nat.testBit_mod_two_pow, hlt, decide_true, Bool.true_and]
  by_cases h : n ≤ 32
  · simp only [pushBack, addBits_eq, Nat.zero_add, h, or_true, ↓reduceIte, hwindow h, bits]
  · have hn : n ≠ 0 := by omega
    simp [pushBack, addBits_eq, h, hn]

end Bits

section Fields
variable {encode : InstructionField → Option (List Bool)}

theorem fieldBits_exists {fields : List InstructionField}
    (h : ∀ field ∈ fields, ∃ l, encode field = some l ∧ l.length = field.width) :
    ∃ word, fieldBits encode fields = some word := by
  induction fields with
  | nil => exact ⟨[], rfl⟩
  | cons field fields ih =>
    obtain ⟨l, hl, hlen⟩ := h field List.mem_cons_self
    obtain ⟨word, hword⟩ := ih fun g hg => h g (List.mem_cons_of_mem _ hg)
    exact ⟨l ++ word, by simp [fieldBits, hl, hword, hlen]⟩

theorem fieldBits_cons {field : InstructionField} {fields : List InstructionField} {word : List Bool}
    (h : fieldBits encode (field :: fields) = some word) :
    ∃ l rest, encode field = some l ∧ l.length = field.width ∧ fieldBits encode fields = some rest ∧
      word = l ++ rest := by
  simp only [fieldBits, Option.bind_eq_bind, Option.bind_eq_some_iff] at h
  obtain ⟨l, hl, rest, hrest, h⟩ := h
  split at h
  next hlen => exact ⟨l, rest, hl, hlen, hrest, (Option.some.inj h).symm⟩
  next => cases h

/-- Each field has its bits where the fields to its left end. -/
theorem length_fieldBits {fields : List InstructionField} :
    ∀ {word : List Bool}, fieldBits encode fields = some word → word.length = (fields.map (·.width)).sum := by
  induction fields with
  | nil => intro _ h; simpa using congrArg List.length (Option.some.inj h).symm
  | cons field fields ih =>
    intro word h
    obtain ⟨l, rest, _, hlen, hrest, rfl⟩ := fieldBits_cons h
    simp [hlen, ih hrest]

theorem length_bemInstructionBits {machine : Machine} {childFields : List InstructionField}
    {other : InstructionField → Option (List Bool)} {instruction : Instruction} {word : List Bool}
    (h : bemInstructionBits machine childFields other instruction = some word) :
    word.length = (childFields.map (·.width)).sum := by
  have := length_fieldBits h
  simpa [List.sum_reverse] using this

end Fields

end Tce.PIG
