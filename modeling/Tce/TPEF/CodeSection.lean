import Tce.Base.Codec

/-!
# Code sections

The elements of a code section and the stream `TPEFCodeSectionWriter` writes
for them and `TPEFCodeSectionReader` reads. Each element starts with a byte of
attributes, which also has the length of an immediate; annotations follow it,
each with its size and whether another one follows.

The registration of elements under keys is left out: it changes neither the
stream nor the elements.
-/

namespace Tce.TPEF

abbrev Byte := BitVec 8
abbrev HalfWord := BitVec 16
abbrev Word := BitVec 32

namespace TPEFHeaders

def IANNOTE_CONTINUATION : Byte := 0x80
def IANNOTE_SIZE : Byte := 0x7f
def IA_TYPE : Byte := 0x01
def IA_END : Byte := 0x02
def IA_ANNOTE : Byte := 0x04
def IA_EMPTY : Byte := 0x08
def IA_MGUARD : Byte := 0x10
def IE_SRC_TYPE_MASK : Byte := 0x0c
def IE_DST_TYPE_MASK : Byte := 0x30
def IE_GUARD_TYPE_MASK : Byte := 0x80
def MVS_RF : Byte := 0x04
def MVS_IMM : Byte := 0x08
def MVS_UNIT : Byte := 0x0c
def MVD_RF : Byte := 0x10
def MVD_UNIT : Byte := 0x30
def MVG_UNIT : Byte := 0x00
def MVG_RF : Byte := 0x80
def IE_GUARD_INV_MASK : Byte := 0x40

end TPEFHeaders

open TPEFHeaders

inductive FieldType where
  | MF_NULL
  | MF_RF
  | MF_IMM
  | MF_UNIT
  deriving DecidableEq, Repr

structure MoveElement where
  isEmpty : Bool
  bus : Byte
  sourceType : FieldType
  destinationType : FieldType
  sourceUnit : Byte
  destinationUnit : Byte
  sourceIndex : HalfWord
  destinationIndex : HalfWord
  isGuarded : Bool
  isGuardInverted : Bool
  guardType : FieldType
  guardUnit : Byte
  guardIndex : HalfWord
  deriving DecidableEq, Repr

structure ImmediateElement where
  destinationUnit : Byte
  destinationIndex : Byte
  value : List Byte
  deriving DecidableEq, Repr

structure InstructionAnnotation where
  id : Word
  payLoad : List Byte
  deriving DecidableEq, Repr

/-- What an element is: a move or an immediate. -/
inductive ElementBody where
  | move (move : MoveElement)
  | immediate (imm : ImmediateElement)
  deriving DecidableEq, Repr

structure InstructionElement where
  begin : Bool
  body : ElementBody
  annotations : List InstructionAnnotation
  deriving DecidableEq, Repr

inductive StreamFault where
  | assertion
  | endOfFile
  deriving DecidableEq, Repr

def check (condition : Bool) : Except StreamFault Unit := if condition then .ok () else .error .assertion

/-- A bit pattern, or none of it. -/
def flag (condition : Bool) (bits : Byte) : Byte := if condition then bits else 0

/-! ## Writing -/

def IMMEDIATE_VALUE_MAX_BYTES : Nat := 16

/-- The most significant byte comes first. -/
def writeHalfWord (halfword : HalfWord) : List Byte := [halfword.extractLsb' 8 8, halfword.extractLsb' 0 8]

/-- The number of bytes is kept in a byte. -/
def InstructionAnnotation.size (annote : InstructionAnnotation) : Byte :=
  BitVec.ofNat 8 annote.payLoad.length

def attributeField (elem : InstructionElement) (isEnd : Bool) : Byte :=
  (match elem.body with
    | .move move => flag move.isGuarded IA_MGUARD ||| flag move.isEmpty IA_EMPTY
    | .immediate imm => IA_TYPE ||| BitVec.ofNat 8 imm.value.length <<< 4) |||
  flag (!elem.annotations.isEmpty) IA_ANNOTE ||| flag isEnd IA_END

def sourceTypeBits : FieldType → Except StreamFault Byte
  | .MF_RF => .ok MVS_RF
  | .MF_IMM => .ok MVS_IMM
  | .MF_UNIT => .ok MVS_UNIT
  | .MF_NULL => .error .assertion

def destinationTypeBits : FieldType → Except StreamFault Byte
  | .MF_RF => .ok MVD_RF
  | .MF_UNIT => .ok MVD_UNIT
  | .MF_NULL | .MF_IMM => .error .assertion

def guardTypeBits : FieldType → Except StreamFault Byte
  | .MF_RF => .ok MVG_RF
  | .MF_UNIT => .ok MVG_UNIT
  | .MF_NULL | .MF_IMM => .error .assertion

def guardBits (move : MoveElement) : Except StreamFault Byte :=
  if move.isGuarded then do
    let guard ← guardTypeBits move.guardType
    return guard ||| flag move.isGuardInverted IE_GUARD_INV_MASK
  else .ok 0

def fieldTypes (move : MoveElement) : Except StreamFault Byte :=
  if move.isEmpty then .ok 0
  else do
    let source ← sourceTypeBits move.sourceType
    let destination ← destinationTypeBits move.destinationType
    let guard ← guardBits move
    return source ||| destination ||| guard

def writeDataField : ElementBody → Except StreamFault (List Byte)
  | .move move => do
    let types ← fieldTypes move
    return move.bus :: types :: move.sourceUnit :: (writeHalfWord move.sourceIndex ++
      move.destinationUnit :: (writeHalfWord move.destinationIndex ++
      move.guardUnit :: writeHalfWord move.guardIndex))
  | .immediate imm => do
    check (imm.value.length ≤ IMMEDIATE_VALUE_MAX_BYTES)
    return imm.destinationUnit :: imm.destinationIndex :: imm.value

/-- The bytes of the payload are counted up to `size`. -/
def writeAnnotation (annote : InstructionAnnotation) (isLast : Bool) : Except StreamFault (List Byte) := do
  check (annote.id.toNat < 0xFFFFFF)
  return (annote.size &&& IANNOTE_SIZE ||| flag (!isLast) IANNOTE_CONTINUATION) ::
    annote.id.extractLsb' 0 8 :: annote.id.extractLsb' 8 8 :: annote.id.extractLsb' 16 8 ::
    annote.payLoad.take annote.size.toNat

def writeAnnotations : List InstructionAnnotation → Except StreamFault (List Byte)
  | [] => .ok []
  | annote :: annotations => do
    let first ← writeAnnotation annote annotations.isEmpty
    let others ← writeAnnotations annotations
    return first ++ others

def writeElement (elem : InstructionElement) (isEnd : Bool) : Except StreamFault (List Byte) := do
  let data ← writeDataField elem.body
  let annotations ← writeAnnotations elem.annotations
  return attributeField elem isEnd :: (data ++ annotations)

/-- An element ends its instruction when the next one begins another. -/
def actualWriteData : List InstructionElement → Except StreamFault (List Byte)
  | [] => .ok []
  | elem :: elems => do
    let first ← writeElement elem (elems.head?.all (·.begin))
    let others ← actualWriteData elems
    return first ++ others

/-! ## Reading -/

abbrev Stream := Reader Byte StreamFault

def readByte : Stream Byte
  | [] => .error .endOfFile
  | byte :: rest => .ok (byte, rest)

def readHalfWord : Stream HalfWord := do
  let high ← readByte
  let low ← readByte
  return high ++ low

def readImmediate (iAttr : Byte) : Stream ElementBody := do
  let destinationUnit ← readByte
  let destinationIndex ← readByte
  let value ← Reader.repeated readByte (iAttr >>> 4).toNat
  return .immediate ⟨destinationUnit, destinationIndex, value⟩

def sourceTypeOf (types : Byte) : Except StreamFault FieldType :=
  if types &&& IE_SRC_TYPE_MASK = MVS_RF then .ok .MF_RF
  else if types &&& IE_SRC_TYPE_MASK = MVS_IMM then .ok .MF_IMM
  else if types &&& IE_SRC_TYPE_MASK = MVS_UNIT then .ok .MF_UNIT
  else .error .assertion

def destinationTypeOf (types : Byte) : Except StreamFault FieldType :=
  if types &&& IE_DST_TYPE_MASK = MVD_RF then .ok .MF_RF
  else if types &&& IE_DST_TYPE_MASK = MVD_UNIT then .ok .MF_UNIT
  else .error .assertion

def guardTypeOf (types : Byte) : Except StreamFault FieldType :=
  if types &&& IE_GUARD_TYPE_MASK = MVG_UNIT then .ok .MF_UNIT
  else if types &&& IE_GUARD_TYPE_MASK = MVG_RF then .ok .MF_RF
  else .error .assertion

/-- The types of the source, of the destination and of the guard if there is one. -/
def readTypes (isEmpty isGuarded : Bool) (types : Byte) :
    Except StreamFault (FieldType × FieldType × Option FieldType) :=
  if isEmpty then .ok (.MF_NULL, .MF_NULL, none)
  else do
    let source ← sourceTypeOf types
    let destination ← destinationTypeOf types
    if isGuarded then
      let guard ← guardTypeOf types
      return (source, destination, some guard)
    else return (source, destination, none)

def readMove (iAttr : Byte) : Stream ElementBody := do
  let bus ← readByte
  let types ← readByte
  let fields ← StateT.lift (readTypes (iAttr &&& IA_EMPTY ≠ 0) (iAttr &&& IA_MGUARD ≠ 0) types)
  let sourceUnit ← readByte
  let sourceIndex ← readHalfWord
  let destinationUnit ← readByte
  let destinationIndex ← readHalfWord
  let guardUnit ← readByte
  let guardIndex ← readHalfWord
  return .move {
    isEmpty := iAttr &&& IA_EMPTY ≠ 0, bus, sourceType := fields.1, destinationType := fields.2.1, sourceUnit,
    destinationUnit, sourceIndex, destinationIndex, isGuarded := fields.2.2.isSome,
    isGuardInverted := types &&& IE_GUARD_INV_MASK ≠ 0, guardType := fields.2.2.getD .MF_NULL, guardUnit, guardIndex }

/-- An annotation and whether another one follows. The bytes of the id are read
from left to right. -/
def readAnnotation : Stream ( InstructionAnnotation × Bool) := do
  let sizeAndContinuation ← readByte
  let low ← readByte
  let middle ← readByte
  let high ← readByte
  let payLoad ← Reader.repeated readByte (sizeAndContinuation &&& IANNOTE_SIZE).toNat
  return (⟨low.setWidth 32 ||| middle.setWidth 32 <<< 8 ||| high.setWidth 32 <<< 16, payLoad⟩,
    sizeAndContinuation &&& IANNOTE_CONTINUATION ≠ 0)

/-- Each annotation takes bytes, so there are no more of them than `fuel` bytes. -/
def readAnnotations : Nat → Stream (List InstructionAnnotation)
  | 0 => fun _ => .error .endOfFile
  | fuel + 1 => do
    let r ← readAnnotation
    if r.2 then do
      let annotations ← readAnnotations fuel
      return r.1 :: annotations
    else return [r.1]

def readBody (iAttr : Byte) : Stream ElementBody :=
  if iAttr &&& IA_TYPE ≠ 0 then readImmediate iAttr else readMove iAttr

def readAnnotationsIf (iAttr : Byte) : Stream (List InstructionAnnotation) := fun stream =>
  if iAttr &&& IA_ANNOTE ≠ 0 then readAnnotations stream.length stream else .ok ([], stream)

/-- An element and whether it ends its instruction. -/
def readElement (nextIsBeginning : Bool) : Stream (InstructionElement × Bool) := do
  let iAttr ← readByte
  let body ← readBody iAttr
  let annotations ← readAnnotationsIf iAttr
  return (⟨nextIsBeginning, body, annotations⟩, iAttr &&& IA_END ≠ 0)

/-- `after` is the length of what follows the section in the stream. Each element
takes bytes, so there are no more of them than `fuel` bytes. -/
def readElements (after : Nat) : Nat → Bool → Stream (List InstructionElement)
  | 0, _ => fun stream => if stream.length ≤ after then .ok ([], stream) else .error .endOfFile
  | fuel + 1, nextIsBeginning => fun stream =>
    if stream.length ≤ after then .ok ([], stream)
    else (readElement nextIsBeginning >>= fun r =>
      readElements after fuel r.2 >>= fun elems => pure (r.1 :: elems)) stream

/-- The elements in the first `bodyLength` bytes of the stream. -/
def readData (bodyLength : Nat) (stream : List Byte) : Except StreamFault (List InstructionElement) :=
  (·.1) <$> (readElements (stream.length - bodyLength) stream.length true).run stream

end Tce.TPEF
