import Tce.BEM.BEMTester
import Tce.BEM.Machine

/-!
# Socket code tables and slot fields

The codes of a socket and the encodings of a source or destination field. Both
take a new encoding only if it is not ambiguous with one that is there and if what
it stands for has none yet. An operation that throws gives nothing.
-/

namespace Tce.BEM

open PrefixCode

/-- A port code without an encoding is the only one of its table. -/
structure PortCode where
  key : PortKey
  encoding : Option Encoding
  indexWidth : Nat
  deriving DecidableEq, Repr

namespace PortCode

def encodingWidth (code : PortCode) : Nat := (code.encoding.map Encoding.width).getD 0

def width (code : PortCode) : Nat := code.encodingWidth + code.indexWidth

end PortCode

structure SocketCodeTable where
  name : String
  portCodes : List PortCode
  extraBits : Nat
  deriving DecidableEq, Repr

namespace SocketCodeTable
variable (table : SocketCodeTable)

def width : Nat := (table.portCodes.map (·.width)).foldr max 0 + table.extraBits

def hasPortCode (key : PortKey) : Bool := table.portCodes.any (·.key = key)

/-- `BEMTester::canAddPortEncoding`; it throws at a code without encoding. -/
def canAddPortEncoding (enc : Encoding) : Bool :=
  table.portCodes.all fun code =>
    match code.encoding with
    | none => false
    | some existing => !ambiguous enc existing existing.width ((existing.width : Int) - enc.width)

def canAddPortCode (code : PortCode) : Bool :=
  !table.hasPortCode code.key &&
    match code.encoding with
    | none => table.portCodes.isEmpty
    | some enc => table.canAddPortEncoding enc

/-- `addFUPortCode`, `addRFPortCode` and `addIUPortCode`. -/
def addPortCode (code : PortCode) : Option SocketCodeTable :=
  if table.canAddPortCode code then some { table with portCodes := table.portCodes ++ [code] } else none

/-- Adds the codes with the encodings handed out to them. -/
def addPortCodes : List (PortCode × Encoding) → SocketCodeTable → Option SocketCodeTable
  | [], table => some table
  | (code, enc) :: codes, table =>
    (table.addPortCode { code with encoding := some enc }).bind (addPortCodes codes)

end SocketCodeTable

inductive Position where
  | left
  | right
  deriving DecidableEq, Repr

/-- What an encoding of a source or destination field stands for, with the width of the
field opposite to it: none, the immediate, or the socket codes. -/
inductive Component where
  | nop
  | immediate (immediateWidth : Nat)
  | socket (name : String) (socketCodes : Option SocketCodeTable)
  | bridge (name : String)
  deriving DecidableEq, Repr

namespace Component

def oppositeWidth : Component → Nat
  | nop => 0
  | immediate immediateWidth => immediateWidth
  | socket _ socketCodes => (socketCodes.map SocketCodeTable.width).getD 0
  | bridge _ => 0

/-- Whether both take the same place of a field: it has one NOP, one immediate, and one
encoding for a name. -/
def same : Component → Component → Bool
  | nop, nop => true
  | immediate _, immediate _ => true
  | socket name _, socket name' _ => name = name'
  | bridge name, bridge name' => name = name'
  | _, _ => false

def isBridge : Component → Bool
  | bridge _ => true
  | _ => false

/-- The width of the component that the test compares with: the immediate counts with its bits. -/
def testedWidth : Component → Encoding → Nat
  | immediate immediateWidth, enc => immediateWidth + enc.width
  | _, enc => enc.width

end Component

inductive FieldKind where
  | sourceField
  | destinationField
  deriving DecidableEq, Repr

structure SlotField where
  kind : FieldKind
  componentIDPosition : Position
  encodings : List (Component × Encoding)
  extraBits : Nat
  deriving Repr

namespace SlotField
variable (field : SlotField)

/-- The encodings a new one is tested against: in a destination field the NOP is not. -/
def tested : List (Component × Encoding) :=
  match field.kind with
  | .sourceField => field.encodings
  | .destinationField => field.encodings.filter fun c => c.1 ≠ .nop

/-- `BEMTester::calculateAlignment`. -/
def calculateAlignment (enc1Width enc2Width : Nat) : Int :=
  match field.componentIDPosition with
  | .right => 0
  | .left => (enc2Width : Int) - enc1Width

def canAddComponentEncoding (enc : Encoding) : Bool :=
  field.tested.all fun c =>
    !ambiguous enc c.2 (c.1.testedWidth c.2) (field.calculateAlignment enc.width (c.1.testedWidth c.2))

/-- `addSocketEncoding`, `setNoOperationEncoding`, `addBridgeEncoding` and
`setImmediateEncoding`. A source field has at most two bridges. -/
def addEncoding (component : Component) (enc : Encoding) : Option SlotField :=
  if field.encodings.any (fun c => c.1.same component) || !field.canAddComponentEncoding enc ||
      (component.isBridge && (field.encodings.countP fun c => c.1.isBridge) = 2) then none
  else some { field with encodings := field.encodings ++ [(component, enc)] }

def addEncodings : List (Component × Encoding) → SlotField → Option SlotField
  | [], field => some field
  | (component, enc) :: components, field =>
    (field.addEncoding component enc).bind (addEncodings components)

/-- The widest encoding with the field opposite to it. -/
def width : Nat :=
  (field.encodings.map fun c => c.2.width + c.1.oppositeWidth).foldr max 0 + field.extraBits

end SlotField

section Tables
variable {table table' : SocketCodeTable}

theorem le_foldr_max {l : List Nat} {n : Nat} (h : n ∈ l) : n ≤ l.foldr max 0 := by
  induction l with
  | nil => cases h
  | cons m l ih =>
    rcases List.mem_cons.mp h with rfl | hm
    · exact Nat.le_max_left _ _
    · exact Nat.le_trans (ih hm) (Nat.le_max_right _ _)

theorem SocketCodeTable.width_le {code : PortCode} (h : code ∈ table.portCodes) : code.width ≤ table.width :=
  Nat.le_trans (le_foldr_max (List.mem_map_of_mem h)) (Nat.le_add_right _ _)

theorem SlotField.width_le {field : SlotField} {component : Component} {enc : Encoding}
    (h : (component, enc) ∈ field.encodings) : enc.width + component.oppositeWidth ≤ field.width :=
  Nat.le_trans (le_foldr_max (List.mem_map_of_mem (f := fun c : Component × Encoding => c.2.width + c.1.oppositeWidth) h))
    (Nat.le_add_right _ _)

end Tables

end Tce.BEM
