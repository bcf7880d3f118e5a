import Tce.ResourceManager.TransportResources

/-!
# Brokers of buses and of output sockets

The queries of the brokers: which of their resources can be assigned to a move
in a cycle, whether a given one can be, and whether any can be.
-/

namespace Tce.ResourceManager

/-! ## Short immediates -/

/-- `MachineConnectivityCheck::requiredImmediateWidth`. -/
def requiredImmediateWidth (spaces : AddressSpaces) (signExtension : Bool) (source : TerminalImmediate) :
    Except BrokerError Nat :=
  let required (number : BitVec 32) :=
    if signExtension then MathTools.requiredBitsSigned number.toInt else MathTools.requiredBits number.toNat
  match source with
  | .codeSymbolReference symbol =>
    if symbol = "_end" then
      match spaces.dataEnd with
      | some dataEnd => .ok (required dataEnd)
      | none => .error .aborted
    else .ok (required spaces.instructionEnd)
  | .instructionAddress | .basicBlockReference => .ok (required spaces.instructionEnd)
  | .value value => .ok (required value)

/-! ## Buses -/

/-- The buses of a machine are different objects. -/
structure BusBroker where
  buses : List Bus
  nodup : buses.Nodup
  spaces : AddressSpaces
  initiationInterval : Nat

namespace BusBroker
variable (broker : BusBroker) (resourceRecord : BusRecord)

def instructionIndex (cycle : Nat) : Nat := Tce.instructionIndex broker.initiationInterval cycle

def resourceOf (bus : Bus) : Option Bus := if bus ∈ broker.buses then some bus else none

def hasResource (bus : Bus) : Bool := decide (bus ∈ broker.buses)

/-- The socket of the destination, which must be connected. -/
def inputPSocket (move : Move) : Except BrokerError PSocketResource :=
  match move.destination.inputSocket with
  | some socket => .ok (.socket socket)
  | none => .error (.moduleRunTimeError ("Tried to find bus for a move to '" ++ move.destination.parentUnit.name ++
      "." ++ move.destination.name ++ "' which has no connections to an input socket. Check operation bindings!"))

def outputPSocket (source : PortSource) : Except BrokerError PSocketResource :=
  match source.port.outputSocket with
  | some socket => .ok (.socket socket)
  | none => .error (.moduleRunTimeError ("Tried to find bus for a move from '" ++ source.port.parentUnit.name ++ "." ++
      source.port.name ++ "' which has no connections to an output socket! Check operation bindings!"))

/-- `findImmResource`. -/
def immResource (bus : Bus) : PSocketResource := .shortImm bus.name

def canTransportImmediate (immediate : TerminalImmediate) (bus : Bus) : Except BrokerError Bool :=
  (requiredImmediateWidth broker.spaces bus.signExtends immediate).map fun bits => decide (bits ≤ bus.immediateWidth)

def canAssign (cycle : Nat) (move : Move) (source destination : PSocketResource) (bus : Bus) : Bool :=
  bus.canAssign broker.initiationInterval resourceRecord cycle move source destination

/-- The bus has a guard that is equal to that of the move. -/
def guardFound (move : Move) (bus : Bus) : Bool :=
  match move.guard with
  | none => true
  | some guard => bus.guards.any (· == guard)

/-- The buses to which the test is true; an exception ends the loop. -/
def candidates (test : Bus → Except BrokerError Bool) : List Bus → Except BrokerError (List Bus)
  | [] => .ok []
  | bus :: buses => do
    let accepted ← test bus
    let rest ← candidates test buses
    return if accepted then bus :: rest else rest

def allAvailableResources (cycle : Nat) (move : Move) : Except BrokerError (List Bus) := do
  let cycle := broker.instructionIndex cycle
  let preassignedBus := move.bus.bind broker.resourceOf
  let preassigned (bus : Bus) := preassignedBus.isNone || some bus == preassignedBus
  let iPSocket ← inputPSocket move
  let buses ← match move.source with
    | .immediate immediate =>
      candidates (fun bus => do
        let transports ← broker.canTransportImmediate immediate bus
        return transports && broker.canAssign resourceRecord cycle move (immResource bus) iPSocket bus &&
          preassigned bus) broker.buses
    | .port source => do
      let oPSocket ← outputPSocket source
      candidates (fun bus =>
        return broker.canAssign resourceRecord cycle move oPSocket iPSocket bus && preassigned bus) broker.buses
  return buses.filter (guardFound move)

def isAvailable (bus : Bus) (cycle : Nat) (move : Move) : Except BrokerError Bool := do
  let cycle := broker.instructionIndex cycle
  let iPSocket ← inputPSocket move
  match move.source with
  | .immediate immediate =>
    let transports ← broker.canTransportImmediate immediate bus
    if !transports && broker.canAssign resourceRecord cycle move (immResource bus) iPSocket bus then
      return false
  | .port source =>
    let oPSocket ← outputPSocket source
    if !broker.canAssign resourceRecord cycle move oPSocket iPSocket bus then
      return false
  return guardFound move bus

/-- `BusBroker::assign`; the guard that replaces that of the move is equal to it. -/
def assign (bus : Bus) (cycle : Nat) (move : Move) : Except BrokerError (BusRecord × Move) :=
  if broker.hasResource bus then
    .ok (bus.assign broker.initiationInterval resourceRecord (broker.instructionIndex cycle),
      { move with bus := some bus })
  else .error (.invalidData "Broker does not contain given resource.")

end BusBroker

/-! ## Output sockets -/

/-- The resource manager tells which immediates a bus can transport. -/
structure OutputPSocketBroker where
  canTransportImmediate : Option (Move → Bool)
  initiationInterval : Nat

namespace OutputPSocketBroker
variable (broker : OutputPSocketBroker) (resources : Socket → OutputPSocketResource)

def instructionIndex (cycle : Nat) : Nat := Tce.instructionIndex broker.initiationInterval cycle

def isApplicable (move : Move) : Bool :=
  match move.source with
  | .immediate _ => move.requiresLimm || broker.canTransportImmediate.any fun transports => !transports move
  | .port _ => true

def canAssign (cycle : Nat) (move : Move) (socket : Socket) : Bool :=
  (resources socket).canAssign broker.initiationInterval cycle move

/-- `SchedulingResourceSet::insert`. -/
def insert (resourceSet : List Socket) (socket : Socket) : Except BrokerError (List Socket) :=
  if socket ∈ resourceSet then .error .objectAlreadyExists else .ok (resourceSet ++ [socket])

/-- The socket of the port is inserted if it can be assigned. -/
def insertPort (canAssign : Socket → Bool) (resourceSet : List Socket) (port : Port) :
    Except BrokerError (List Socket) :=
  match port.outputSocket with
  | some socket => if canAssign socket then insert resourceSet socket else .ok resourceSet
  | none => .ok resourceSet

/-- The sockets of the ports of a unit that can be assigned. -/
def portSockets (canAssign : Socket → Bool) (ports : List Port) : Except BrokerError (List Socket) :=
  ports.foldlM (insertPort canAssign) []

def notCapable : BrokerError := .moduleRunTimeError "Broker not capable of assigning resources to node!"

def allAvailableResources (cycle : Nat) (move : Move) : Except BrokerError (List Socket) :=
  let cycle := broker.instructionIndex cycle
  if !broker.isApplicable move then .error notCapable
  else
    match move.source with
    | .port (.FUPort port) =>
      match port.outputSocket with
      | some socket => if broker.canAssign resources cycle move socket then insert [] socket else .ok []
      | none => .error .aborted
    | .port (.GPR registerFile _ _) => portSockets (broker.canAssign resources cycle move) registerFile.ports
    | .port (.immediateRegister immediateUnit _ _) =>
      portSockets (broker.canAssign resources cycle move) immediateUnit.ports
    | .immediate _ => .ok []

/-- The first port with a socket that can be assigned decides. -/
def anyPortSocket (canAssign : Socket → Bool) : List Port → Bool
  | [] => false
  | port :: ports =>
    match port.outputSocket with
    | some socket => if canAssign socket then true else anyPortSocket canAssign ports
    | none => anyPortSocket canAssign ports

def isAnyResourceAvailable (cycle : Nat) (move : Move) : Except BrokerError Bool :=
  let cycle := broker.instructionIndex cycle
  if !broker.isApplicable move then .error notCapable
  else
    match move.source with
    | .port (.FUPort port) =>
      match port.outputSocket with
      | some socket => if broker.canAssign resources cycle move socket then .ok true else .ok false
      | none => .error .aborted
    | .port (.GPR registerFile _ _) => .ok (anyPortSocket (broker.canAssign resources cycle move) registerFile.ports)
    | .port (.immediateRegister immediateUnit _ _) =>
      .ok (anyPortSocket (broker.canAssign resources cycle move) immediateUnit.ports)
    | .immediate _ => .ok false

end OutputPSocketBroker

end Tce.ResourceManager
