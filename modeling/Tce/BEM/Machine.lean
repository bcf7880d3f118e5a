import Tce.BEM.Encoding
import Tce.PIG.InstructionTemplate

/-!
# The machine as the generator reads it

Sockets with the ports they connect to units, buses with the sockets at their
segments, bridges, guards, instruction templates and immediate units. What the
machine object model refuses cannot be built: names of one kind differ, two ports
of one register file are not at one socket, and a bus is the destination of at
most two bridges.
-/

namespace Tce.BEM

/-- `BEMGenerator::requiredIndexWidth`. -/
def requiredIndexWidth (numberOfRegisters : Nat) : Nat :=
  if numberOfRegisters ≤ 1 then 0 else bitLength (numberOfRegisters - 1)

theorem lt_two_pow_requiredIndexWidth {numberOfRegisters index : Nat} (h : index < numberOfRegisters) :
    index < 2 ^ requiredIndexWidth numberOfRegisters := by
  unfold requiredIndexWidth
  split
  · rw [Nat.pow_zero]
    omega
  · have := lt_two_pow_bitLength (numberOfRegisters - 1)
    omega

/-- The parent unit of a port. The names of operations are in lower case, as the machine
keeps them; the control unit is a function unit. -/
inductive ParentUnit where
  | functionUnit (name : String) (operations : List String)
  | registerFile (name : String) (numberOfRegisters : Nat)
  | immediateUnit (name : String) (numberOfRegisters : Nat)
  deriving DecidableEq, Repr

structure Port where
  name : String
  parentUnit : ParentUnit
  isOpcodeSetting : Bool
  deriving DecidableEq, Repr

/-- What a port code stands for: a port of a function unit, with an operation when the
port sets the opcode, or a register file or immediate unit. -/
inductive PortKey where
  | fu (unitName portName : String) (operationName : Option String)
  | rf (unitName : String)
  | iu (unitName : String)
  deriving DecidableEq, Repr

namespace Port
variable (port : Port)

def indexWidth : Nat :=
  match port.parentUnit with
  | .functionUnit _ _ => 0
  | .registerFile _ n => requiredIndexWidth n
  | .immediateUnit _ n => requiredIndexWidth n

/-- The port codes of a port; operations are in alphabetical order. -/
def portKeys : List PortKey :=
  match port.parentUnit with
  | .functionUnit fu operations =>
    if port.isOpcodeSetting then (operations.insertionSort (· ≤ ·)).map fun op => .fu fu port.name (some op)
    else [.fu fu port.name none]
  | .registerFile rf _ => [.rf rf]
  | .immediateUnit iu _ => [.iu iu]

end Port

inductive Direction where
  | unknown
  | input
  | output
  deriving DecidableEq, Repr

/-- A socket refuses a second port of a register file, and ports and operations of a
unit have names of their own. -/
structure Socket where
  name : String
  direction : Direction
  ports : List Port
  keys_nodup : (ports.flatMap Port.portKeys).Nodup
  deriving DecidableEq

inductive Guard where
  | portGuard (unitName portName : String) (isInverted : Bool)
  | registerGuard (registerFile : String) (registerIndex : Nat) (isInverted : Bool)
  | unconditionalGuard (isInverted : Bool)
  deriving DecidableEq, Repr

/-- `addGuard` refuses a guard the bus has already. -/
structure Bus where
  name : String
  segments : List (List Socket)
  immediateWidth : Nat
  guards : List Guard
  guards_nodup : guards.Nodup

structure Bridge where
  name : String
  sourceBus : String
  destinationBus : String
  deriving DecidableEq, Repr

structure ImmediateUnit where
  name : String
  numberOfRegisters : Nat
  deriving DecidableEq, Repr

structure Machine where
  sockets : List Socket
  buses : List Bus
  bridges : List Bridge
  immediateSlots : List String
  instructionTemplates : List PIG.InstructionTemplate
  immediateUnits : List ImmediateUnit
  sockets_nodup : (sockets.map (·.name)).Nodup
  connected : ∀ bus ∈ buses, ∀ segment ∈ bus.segments, ∀ socket ∈ segment, socket ∈ sockets
  buses_nodup : (buses.map (·.name)).Nodup
  bridges_nodup : (bridges.map (·.name)).Nodup
  bridges_le : ∀ bus ∈ buses, (bridges.filter (·.destinationBus = bus.name)).length ≤ 2
  immediateSlots_nodup : immediateSlots.Nodup
  instructionTemplates_nodup : (instructionTemplates.map (·.name)).Nodup
  immediateUnits_nodup : (immediateUnits.map (·.name)).Nodup

section Sockets

/-- The sockets of one direction at a bus, each at the first segment it is connected to:
what `socketCount` counts and `socket` looks up. -/
def pushNew (connectedSockets : List Socket) : List Socket → List Socket
  | [] => connectedSockets
  | socket :: sockets =>
    if socket ∈ connectedSockets then pushNew connectedSockets sockets
    else pushNew (connectedSockets ++ [socket]) sockets

def Bus.connectedSockets (bus : Bus) (direction : Direction) : List Socket :=
  pushNew [] (bus.segments.flatten.filter (·.direction = direction))

theorem mem_pushNew {connectedSockets sockets : List Socket} {socket : Socket} :
    socket ∈ pushNew connectedSockets sockets ↔ socket ∈ connectedSockets ∨ socket ∈ sockets := by
  induction sockets generalizing connectedSockets with
  | nil => simp [pushNew]
  | cons s sockets ih =>
    unfold pushNew
    split
    · rename_i hs
      rw [ih, List.mem_cons]
      constructor
      · rintro (h | h)
        · exact .inl h
        · exact .inr (.inr h)
      · rintro (h | rfl | h)
        · exact .inl h
        · exact .inl hs
        · exact .inr h
    · simp [ih, or_assoc]

theorem nodup_pushNew {connectedSockets sockets : List Socket} (h : connectedSockets.Nodup) :
    (pushNew connectedSockets sockets).Nodup := by
  induction sockets generalizing connectedSockets with
  | nil => exact h
  | cons s sockets ih =>
    unfold pushNew
    split
    · exact ih h
    · rename_i hs
      apply ih
      apply List.nodup_append.mpr
      exact ⟨h, by simp, by rintro a ha b hb rfl; exact hs (List.mem_singleton.mp hb ▸ ha)⟩

theorem Bus.mem_connectedSockets {bus : Bus} {direction : Direction} {socket : Socket} :
    socket ∈ bus.connectedSockets direction ↔
      (∃ segment ∈ bus.segments, socket ∈ segment) ∧ socket.direction = direction := by
  simp [Bus.connectedSockets, mem_pushNew, ← and_assoc]

theorem Bus.connectedSockets_nodup (bus : Bus) (direction : Direction) :
    (bus.connectedSockets direction).Nodup := nodup_pushNew List.nodup_nil

theorem Machine.mem_sockets {m : Machine} {bus : Bus} (hb : bus ∈ m.buses) {direction : Direction} {socket : Socket}
    (h : socket ∈ bus.connectedSockets direction) : socket ∈ m.sockets := by
  obtain ⟨⟨segment, hseg, hs⟩, _⟩ := Bus.mem_connectedSockets.mp h
  exact m.connected bus hb segment hseg socket hs

/-- Sockets of a machine with one name are one socket. -/
theorem Machine.socket_eq {m : Machine} {s t : Socket} (hs : s ∈ m.sockets) (ht : t ∈ m.sockets)
    (h : s.name = t.name) : s = t :=
  List.inj_on_of_nodup_map m.sockets_nodup hs ht h

end Sockets

/-- `BEMGenerator::sourceBridge` for all indices. -/
def Machine.sourceBridges (m : Machine) (bus : Bus) : List Bridge :=
  m.bridges.filter (·.destinationBus = bus.name)

/-- `InstructionTemplate::isOneOfDestinations`. -/
def isOneOfDestinations (iTemp : PIG.InstructionTemplate) (iu : ImmediateUnit) : Bool :=
  iTemp.slots.any (·.destination = iu.name)

end Tce.BEM
