import Tce.Scheduler.SchedulingResource
import Tce.Tools.MathTools

/-!
# Resources of transports

The buses and sockets of a machine as scheduling resources: what they record of
the moves that are assigned, and whether one more move can be.
-/

namespace Tce.ResourceManager

/-! ## Machines -/

inductive Direction where
  | INPUT | OUTPUT
  deriving DecidableEq, Repr

structure Socket where
  name : String
  direction : Direction
  deriving DecidableEq, Repr

inductive MachineUnit where
  | functionUnit (name : String)
  | registerFile (name : String)
  | immediateUnit (name : String)
  deriving DecidableEq, Repr

def MachineUnit.name : MachineUnit → String
  | functionUnit name | registerFile name | immediateUnit name => name

structure Port where
  name : String
  parentUnit : MachineUnit
  width : Nat
  inputSocket : Option Socket
  outputSocket : Option Socket
  deriving DecidableEq, Repr

/-- The ports of a register file or an immediate unit; no two are connected to one socket. -/
structure RegisterFile where
  ports : List Port
  distinct : (ports.filterMap (·.outputSocket)).Nodup

structure Bus where
  name : String
  width : Nat
  immediateWidth : Nat
  signExtends : Bool
  guards : List Guard
  sockets : List Socket
  deriving DecidableEq, Repr

/-- The last addresses of the address spaces of instructions and of data. -/
structure AddressSpaces where
  instructionEnd : BitVec 32
  dataEnd : Option (BitVec 32)

/-! ## Moves -/

inductive TerminalImmediate where
  | value (value : BitVec 32)
  | instructionAddress
  | basicBlockReference
  | codeSymbolReference (symbol : String)
  deriving DecidableEq, Repr

/-- A source with a port. A register or an immediate register is read through
any of the ports of its unit. -/
inductive PortSource where
  | FUPort (port : Port)
  | GPR (registerFile : RegisterFile) (port : Port) (index : Nat)
  | immediateRegister (immediateUnit : RegisterFile) (port : Port) (index : Nat)

def PortSource.port : PortSource → Port
  | FUPort port | GPR _ port _ | immediateRegister _ port _ => port

inductive Source where
  | immediate (immediate : TerminalImmediate)
  | port (source : PortSource)

/-- The bus is none while it is the universal bus. -/
structure Move where
  source : Source
  destination : Port
  guard : Option Guard
  bus : Option Bus
  requiresLimm : Bool

/-! ## Errors -/

inductive BrokerError where
  | moduleRunTimeError (message : String)
  | invalidData (message : String)
  | objectAlreadyExists
  /-- An assertion fails or a null pointer is followed. -/
  | aborted
  deriving DecidableEq, Repr

/-! ## Sockets -/

inductive PSocketResource where
  | shortImm (bus : String)
  | socket (socket : Socket)
  deriving DecidableEq, Repr

namespace PSocketResource

def isOutputPSocketResource : PSocketResource → Bool
  | shortImm _ => true
  | .socket s => s.direction == .OUTPUT

def isInputPSocketResource : PSocketResource → Bool
  | shortImm _ => false
  | .socket s => s.direction == .INPUT

end PSocketResource

/-! ## Buses -/

/-- The uses of the buses by instruction index. -/
abbrev BusRecord := Bus → Nat → Nat

namespace Bus
variable (bus : Bus)

/-- The resource of the short immediates of the bus, and those of its sockets. -/
def relatedResources : List PSocketResource := .shortImm bus.name :: bus.sockets.map .socket

def hasRelatedResource (resource : PSocketResource) : Bool := bus.relatedResources.contains resource

variable (initiationInterval : Nat) (resourceRecord : BusRecord)

def isInUse (cycle : Nat) : Bool := resourceRecord bus (instructionIndex initiationInterval cycle) != 0

def isAvailable (cycle : Nat) : Bool := !bus.isInUse initiationInterval resourceRecord cycle

def isAvailableFor (cycle : Nat) (inputPSocket outputPSocket : PSocketResource) : Bool :=
  if !(bus.hasRelatedResource inputPSocket && bus.hasRelatedResource outputPSocket) then false
  else bus.isAvailable initiationInterval resourceRecord cycle

/-- The source is wider than the bus; that of an immediate counts as such. -/
def sourceWontFit (move : Move) : Bool :=
  match move.source with
  | .immediate _ => true
  | .port source => decide (bus.width < source.port.width)

def canAssign (cycle : Nat) (move : Move) (inputPSocket outputPSocket : PSocketResource) : Bool :=
  if !bus.isAvailableFor initiationInterval resourceRecord cycle inputPSocket outputPSocket then false
  else if bus.sourceWontFit move && decide (bus.width < move.destination.width) then false
  else if !inputPSocket.isOutputPSocketResource || !bus.hasRelatedResource inputPSocket then false
  else if !outputPSocket.isInputPSocketResource || !bus.hasRelatedResource outputPSocket then false
  else true

/-- `BusResource::assign`: the bus is in use afterwards. -/
def assign (cycle : Nat) : BusRecord :=
  if bus.isAvailable initiationInterval resourceRecord cycle then
    Function.update resourceRecord bus
      (Function.update (resourceRecord bus) (instructionIndex initiationInterval cycle) 1)
  else resourceRecord

def unassign (cycle : Nat) : Except BrokerError BusRecord :=
  if bus.isInUse initiationInterval resourceRecord cycle then
    .ok (Function.update resourceRecord bus
      (Function.update (resourceRecord bus) (instructionIndex initiationInterval cycle) 0))
  else .error (.moduleRunTimeError
    ("Bus " ++ bus.name ++ " can not be unassigned in cycle " ++ toString cycle ++ ", it was not in use!"))

end Bus

/-! ## Output sockets -/

/-- A read that is assigned to a socket. -/
structure SocketUse where
  source : PortSource
  guard : Option Guard

/-- The reads through a socket and the port that is read, by instruction index. -/
structure OutputPSocketResource where
  resourceRecord : Nat → List SocketUse
  storedPorts : Nat → Option Port

/-- `TerminalRegister::equals` of two reads of registers. -/
def PortSource.equals : PortSource → PortSource → Bool
  | GPR _ port index, GPR _ port' index' => index == index' && port.parentUnit.name == port'.parentUnit.name
  | _, _ => false

def PortSource.index : PortSource → Option Nat
  | FUPort _ => none
  | GPR _ _ index | immediateRegister _ _ index => some index

/-- The read may share the socket with the one that is assigned. -/
def PortSource.mayShare (source : PortSource) (guard : Option Guard) (use : SocketUse) : Bool :=
  match guard, use.guard with
  | some guard, some guard' => guard.isOpposite guard' || source.equals use.source
  | _, _ => source.port.parentUnit == use.source.port.parentUnit && source.index == use.source.index

/-- The cycle is an instruction index already. -/
def OutputPSocketResource.canAssign (resource : OutputPSocketResource) (initiationInterval cycle : Nat) (move : Move) :
    Bool :=
  let stored := resource.storedPorts (instructionIndex initiationInterval cycle)
  match move.source with
  | .port (.FUPort port) => stored.all fun storedPort => port == storedPort
  | .port (.immediateRegister ..) => stored.isNone
  | .port (.GPR registerFile port index) =>
    stored.all (fun storedPort => port.parentUnit == storedPort.parentUnit) &&
      (resource.resourceRecord cycle).all ((PortSource.GPR registerFile port index).mayShare move.guard)
  | .immediate _ => true

end Tce.ResourceManager
