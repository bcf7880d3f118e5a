import Tce.Base.Handout
import Tce.BEM.SocketCodeTable

/-!
# The binary encoding map generator

Which binary encoding map is built for a machine: tables of port codes for the
sockets, a move slot for each bus with its destination, source and guard fields,
and the fields that long immediates need. A step that throws, fails an assertion
or does not end gives nothing.
-/

namespace Tce.BEM

open Handout

structure ImmediateSlotField where
  name : String
  width : Nat
  deriving DecidableEq, Repr

/-- The immediate unit the field has the register index of, for each template that uses it. -/
structure LImmDstRegisterField where
  width : Nat
  destinationMap : List (String × String)
  deriving DecidableEq, Repr

structure GuardField where
  encodings : List (Guard × Nat)
  extraBits : Nat
  deriving DecidableEq, Repr

namespace GuardField

def width (field : GuardField) : Nat := (field.encodings.map fun e => bitLength e.2).foldr max 0 + field.extraBits

def addGuardEncoding (field : GuardField) (guard : Guard) (encoding : Nat) : Option GuardField :=
  if field.encodings.any fun e => e.1 = guard || e.2 = encoding then none
  else some { field with encodings := field.encodings ++ [(guard, encoding)] }

end GuardField

structure MoveSlot where
  name : String
  destinationField : SlotField
  sourceField : SlotField
  guardField : Option GuardField
  deriving Repr

def MoveSlot.width (slot : MoveSlot) : Nat :=
  (slot.guardField.map GuardField.width).getD 0 + slot.sourceField.width + slot.destinationField.width

structure BinaryEncoding where
  socketCodeTables : List (Socket × SocketCodeTable)
  immediateSlotFields : List ImmediateSlotField
  moveSlots : List MoveSlot
  longImmDstRegisterFields : List LImmDstRegisterField
  immediateControlField : Option (List (String × Nat))

section PortCodes

/-- The codes of a port, still without encodings. -/
def Port.portCodes (port : Port) : List PortCode :=
  port.portKeys.map fun key => ⟨key, none, port.indexWidth⟩

/-- The number of port codes that are calculated for a port. -/
def encodingsNeeded (direction : Direction) (port : Port) : Nat :=
  match port.parentUnit with
  | .functionUnit _ operations =>
    if port.isOpcodeSetting && direction = .input then operations.length else 1
  | _ => 1

def indexWidths (socket : Socket) : List Nat :=
  socket.ports.flatMap fun port => List.replicate (encodingsNeeded socket.direction port) port.indexWidth

def needsSocketCodeTable (socket : Socket) : Bool :=
  match socket.ports with
  | [] => false
  | [port] =>
    match port.parentUnit with
    | .functionUnit _ operations => port.isOpcodeSetting && 1 < operations.length
    | .registerFile _ numberOfRegisters => 1 < numberOfRegisters
    | .immediateUnit _ numberOfRegisters => 1 < numberOfRegisters
  | _ => true

/-- The code of a table without encodings: that of its single port. -/
def singlePortCode (socket : Socket) : Option PortCode :=
  match socket.ports with
  | [port] =>
    match port.parentUnit with
    | .functionUnit _ _ => none
    | .registerFile rf n => some ⟨.rf rf, none, requiredIndexWidth n⟩
    | .immediateUnit iu n => some ⟨.iu iu, none, requiredIndexWidth n⟩
  | _ => none

/-- `BEMGenerator::addPortCodes`. The next encoding goes to the first port left with its
index width; a port that sets the opcode takes one for each of its operations. -/
def addPortCodes (table : SocketCodeTable) (socket : Socket) : Option SocketCodeTable :=
  (calculateEncodings (indexWidths socket)).bind fun encodings =>
    if encodings.isEmpty then (singlePortCode socket).bind table.addPortCode
    else
      (handOut Port.indexWidth Port.portCodes socket.ports.length socket.ports
        (encodings.zip (descending (indexWidths socket)))).bind fun codes => table.addPortCodes codes

end PortCodes

section Tables

/-- The table of each socket that has one. -/
abbrev SCTableMap := List (Socket × SocketCodeTable)

def socketCodeTable (scTableMap : SCTableMap) (socket : Socket) : Option SocketCodeTable :=
  scTableMap.lookup socket

def haveEqualConnections (socket1 socket2 : Socket) : Bool :=
  socket1.ports.all (· ∈ socket2.ports) && socket2.ports.all (· ∈ socket1.ports)

def suitableSocketCodeTable (scTableMap : SCTableMap) (socket : Socket) : Option SocketCodeTable :=
  (scTableMap.find? fun entry => haveEqualConnections socket entry.1).map (·.2)

/-- A table for the socket, that of a socket with equal connections or a new one. -/
def tableFor (scTableMap : SCTableMap) (socket : Socket) : Option SocketCodeTable :=
  match suitableSocketCodeTable scTableMap socket with
  | some suitable => some suitable
  | none =>
    if scTableMap.any (·.2.name = socket.name) then none
    else addPortCodes ⟨socket.name, [], 0⟩ socket

def addSocketCodeTables : List Socket → SCTableMap → Option SCTableMap
  | [], scTableMap => some scTableMap
  | socket :: sockets, scTableMap =>
    if needsSocketCodeTable socket then
      (tableFor scTableMap socket).bind fun table => addSocketCodeTables sockets (scTableMap ++ [(socket, table)])
    else addSocketCodeTables sockets scTableMap

end Tables

section SlotFields
variable (m : Machine) (scTableMap : SCTableMap) (bus : Bus)

/-- A bus with an always-false guard needs no encodings for NOP. -/
def createNopField : Bool := !bus.guards.any (· = .unconditionalGuard true)

def nopComponents : List Component := if createNopField bus then [.nop] else []

def socketComponents (direction : Direction) : List Component :=
  (bus.connectedSockets direction).map fun socket => .socket socket.name (socketCodeTable scTableMap socket)

def destinationComponents : List Component := nopComponents bus ++ socketComponents scTableMap bus .input

/-- In the order in which they are tried for an encoding. -/
def sourceComponents : List Component :=
  nopComponents bus ++ (if 0 < bus.immediateWidth then [.immediate bus.immediateWidth] else []) ++
    socketComponents scTableMap bus .output ++ (m.sourceBridges bus).map fun bridge => .bridge bridge.name

/-- Calculates encodings for the components and gives each to the first component left
that has its opposite width. -/
def addComponents (components : List Component) (field : SlotField) : Option SlotField :=
  (calculateEncodings (components.map (·.oppositeWidth))).bind fun encodings =>
    (handOut Component.oppositeWidth (fun c => [c]) components.length components
      (encodings.zip (descending (components.map (·.oppositeWidth))))).bind fun handed => field.addEncodings handed

/-- `addEncodings` of a destination field: no encodings without a socket to write to. -/
def addDestinationEncodings (field : SlotField) : Option SlotField :=
  if (bus.connectedSockets .input).isEmpty then some field
  else addComponents (destinationComponents scTableMap bus) field

/-- `addEncodings` of a source field; a bus has at most two source bridges. -/
def addSourceEncodings (field : SlotField) : Option SlotField :=
  if (m.sourceBridges bus).length ≤ 2 then addComponents (sourceComponents m scTableMap bus) field else none

def addGuardEncodings : List Guard → Nat → GuardField → Option GuardField
  | [], _, field => some field
  | guard :: guards, i, field => (field.addGuardEncoding guard i).bind (addGuardEncodings guards (i + 1))

def maxLongImmSlotWidth (slotName : String) : Nat :=
  ((m.instructionTemplates.flatMap (·.slots)).map fun slot => if slot.slot = slotName then slot.width else 0).foldr
    max 0

/-- Widens the guard field, which is made for that if need be, until the slot is wide enough. -/
def addExtraGuardBits (slot : MoveSlot) : Option MoveSlot :=
  let longImmWidth := maxLongImmSlotWidth m slot.name
  if slot.width < longImmWidth then
    let extraBits := longImmWidth - slot.width
    match slot.guardField with
    | some gField => some { slot with guardField := some { gField with extraBits := extraBits + gField.extraBits } }
    | none =>
      (addGuardEncodings bus.guards 0 ⟨[], 0⟩).map fun gField =>
        { slot with guardField := some { gField with extraBits := extraBits + gField.extraBits } }
  else some slot

def guardFieldOf : Option (Option GuardField) :=
  if 1 < bus.guards.length then (addGuardEncodings bus.guards 0 ⟨[], 0⟩).map some else some none

/-- `BEMGenerator::addSubfields` for the slot of a bus. -/
def addSubfields : Option MoveSlot :=
  (addDestinationEncodings scTableMap bus ⟨.destinationField, .left, [], 0⟩).bind fun dField =>
  (addSourceEncodings m scTableMap bus ⟨.sourceField, .left, [], 0⟩).bind fun sField =>
  (guardFieldOf bus).bind fun gField => addExtraGuardBits m bus ⟨bus.name, dField, sField, gField⟩

end SlotFields

section LongImmediates
variable (m : Machine)

/-- The immediate units of a template that need a register index. -/
def indexedDestinations (iTemp : PIG.InstructionTemplate) : List ImmediateUnit :=
  m.immediateUnits.filter fun iu => isOneOfDestinations iTemp iu && 1 < iu.numberOfRegisters

def indexLength (iu : ImmediateUnit) : Nat := bitLength (iu.numberOfRegisters - 1)

def requiredSizes (iTemp : PIG.InstructionTemplate) : List Nat :=
  descending ((indexedDestinations m iTemp).map indexLength)

def fieldCount : Nat := (m.instructionTemplates.map fun iTemp => (indexedDestinations m iTemp).length).foldr max 0

/-- Increases the values of the field widths if required. -/
def increase : List Nat → List Nat → List Nat
  | width :: widths, size :: sizes => max width size :: increase widths sizes
  | widths, _ => widths

def fieldWidths : List Nat :=
  m.instructionTemplates.foldl (fun widths iTemp => increase widths (requiredSizes m iTemp))
    (List.replicate (fieldCount m) 0)

abbrev ImmDstMapping := String × String

/-- `LImmDstRegisterField::addDestination`. -/
def LImmDstRegisterField.addDestination (field : LImmDstRegisterField) (instructionTemplate immediateUnit : String) :
    Option LImmDstRegisterField :=
  match field.destinationMap.lookup instructionTemplate with
  | some other => if other ≠ immediateUnit then none else some field
  | none => some { field with destinationMap := field.destinationMap ++ [(instructionTemplate, immediateUnit)] }

/-- Adds the destinations that fit in the field and have no field yet. -/
def addDestinations : List (PIG.InstructionTemplate × ImmediateUnit) → List ImmDstMapping → LImmDstRegisterField →
    Option (List ImmDstMapping × LImmDstRegisterField)
  | [], mapped, field => some (mapped, field)
  | (iTemp, iu) :: pairs, mapped, field =>
    if indexLength iu ≤ field.width && (iTemp.name, iu.name) ∉ mapped then
      (field.addDestination iTemp.name iu.name).bind (addDestinations pairs ((iTemp.name, iu.name) :: mapped))
    else addDestinations pairs mapped field

def destinationPairs : List (PIG.InstructionTemplate × ImmediateUnit) :=
  m.instructionTemplates.flatMap fun iTemp => (indexedDestinations m iTemp).map (iTemp, ·)

/-- Makes the fields from the narrowest one. -/
def addFields : List Nat → List ImmDstMapping → Option (List LImmDstRegisterField)
  | [], _ => some []
  | fieldWidth :: widths, mapped =>
    if fieldWidth < 1 then none
    else
      (addDestinations (destinationPairs m) mapped ⟨fieldWidth, []⟩).bind fun r =>
        (addFields widths r.1).map (r.2 :: ·)

def addLongImmDstRegisterFields : Option (List LImmDstRegisterField) := addFields m (fieldWidths m).reverse []

end LongImmediates

section Generate
variable (m : Machine)

/-- `ImmediateSlot::width`. -/
def immediateSlotWidth (name : String) : Nat := (m.instructionTemplates.map (·.supportedWidth name)).foldr max 0

/-- A field for each immediate slot that is used by a template. -/
def addImmediateSlotFields : List String → List ImmediateSlotField → Option (List ImmediateSlotField)
  | [], fields => some fields
  | name :: names, fields =>
    if 0 < immediateSlotWidth m name then
      if fields.any (·.name = name) then none
      else addImmediateSlotFields names (fields ++ [⟨name, immediateSlotWidth m name⟩])
    else addImmediateSlotFields names fields

def addMoveSlots (scTableMap : SCTableMap) : List Bus → List MoveSlot → Option (List MoveSlot)
  | [], slots => some slots
  | bus :: buses, slots =>
    if slots.any (·.name = bus.name) then none
    else (addSubfields m scTableMap bus).bind fun slot => addMoveSlots scTableMap buses (slots ++ [slot])

def immediateControlField : Option (List (String × Nat)) :=
  if 1 < m.instructionTemplates.length then some (m.instructionTemplates.zipIdx.map fun t => (t.1.name, t.2))
  else none

/-- `BEMGenerator::generate`. -/
def generate : Option BinaryEncoding :=
  (addSocketCodeTables m.sockets []).bind fun scTableMap =>
  (addImmediateSlotFields m m.immediateSlots []).bind fun immediateSlotFields =>
  (addLongImmDstRegisterFields m).bind fun longImmDstRegisterFields =>
  (addMoveSlots m scTableMap m.buses []).map fun moveSlots =>
    ⟨scTableMap, immediateSlotFields, moveSlots, longImmDstRegisterFields, immediateControlField m⟩

end Generate

end Tce.BEM
