import Mathlib.Data.ENat.Basic
import Tce.ResourceManager.ResourceBrokers

/-!
# Register copies

When no bus leads from the source of a move to its destination the move goes
through scratch registers. The copies that each unit would take are counted
first, and made for a unit that takes the fewest. `⊤` stands for `INT_MAX`.
-/

namespace Tce.RegisterCopyAdder

open ResourceManager (Port Bus TerminalImmediate)

/-! ## Machines -/

/-- The ports of a register file are as wide as its registers. -/
structure RegisterFile where
  name : String
  width : Nat
  ports : List Port
  width_eq : ∀ port ∈ ports, port.width = width
  deriving DecidableEq

structure HWOperation where
  name : String
  ports : List (Nat × Port)

def HWOperation.port (operation : HWOperation) (index : Nat) : Option Port := operation.ports.lookup index

structure FunctionUnit where
  name : String
  operations : List HWOperation

def FunctionUnit.operation (unit : FunctionUnit) (name : String) : Option HWOperation :=
  unit.operations.find? (·.name == name)

def FunctionUnit.hasOperation (unit : FunctionUnit) (name : String) : Bool := (unit.operation name).isSome

/-- `units` are the function units and the control unit in the order of their ids;
`instructionEnd` and `dataEnd` are the last addresses of the address spaces. -/
structure Machine where
  buses : List Bus
  units : List FunctionUnit
  returnAddressPort : Port
  immediateUnits : List RegisterFile
  instructionEnd : BitVec 32
  dataEnd : BitVec 32

namespace Machine
variable (machine : Machine)

/-- The buses that write to the port. -/
def connectedSourceBuses (port : Port) : List Bus :=
  machine.buses.filter fun bus => port.inputSocket.any (bus.sockets.contains ·)

/-- The buses that the port writes to. -/
def connectedDestinationBuses (port : Port) : List Bus :=
  machine.buses.filter fun bus => port.outputSocket.any (bus.sockets.contains ·)

/-- `MachineConnectivityCheck::isConnected`: the ports share a bus. -/
def isConnected (sourcePort destinationPort : Port) : Bool :=
  (machine.connectedDestinationBuses sourcePort).any ((machine.connectedSourceBuses destinationPort).contains ·)

/-- Some of the ports are connected. -/
def arePortsConnected (sourcePorts destinationPorts : List Port) : Bool :=
  sourcePorts.any fun sourcePort => destinationPorts.any (machine.isConnected sourcePort ·)

def requiredImmediateWidth (signExtension : Bool) (immediate : TerminalImmediate) : Nat :=
  (ResourceManager.requiredImmediateWidth ⟨machine.instructionEnd, some machine.dataEnd⟩ signExtension
    immediate).toOption.getD 0

/-- Some bus with a wide enough immediate writes to one of the ports. -/
def canTransportImmediate (immediate : TerminalImmediate) (ports : List Port) : Bool :=
  ports.any fun port => (machine.connectedSourceBuses port).any fun bus =>
    decide (machine.requiredImmediateWidth bus.signExtends immediate ≤ bus.immediateWidth)

end Machine

/-! ## Moves -/

structure Register where
  file : RegisterFile
  index : Nat
  deriving DecidableEq

/-- A port of a unit is given by its operation and operand, the unit is open. -/
inductive Source where
  | register (register : Register)
  | unitPort (operation : String) (index : Nat)
  | returnAddress
  | immediate (immediate : TerminalImmediate)

inductive Destination where
  | register (register : Register)
  | unitPort (operation : String) (index : Nat)
  | returnAddress

/-- `allowedUnits` and `candidateUnits` are the units of annotations. -/
structure Move where
  source : Source
  destination : Destination
  allowedUnits : List String
  candidateUnits : List String

structure ProgramOperation where
  name : String
  inputMoves : List Move
  outputMoves : List Move

def ProgramOperation.moves (operation : ProgramOperation) : List Move := operation.inputMoves ++ operation.outputMoves

inductive CopyError where
  | illegalProgram
  | illegalMachine
  /-- An assertion fails or a null pointer is followed. -/
  | aborted
  deriving DecidableEq, Repr

/-! ## Search -/

/-- The scratch registers by index: those that are wide enough, and the connections. -/
structure Routing where
  count : Nat
  wide : Nat → Bool
  fromSource : Nat → Bool
  between : Nat → Nat → Bool
  toDestination : Nat → Bool

/-- `dist` is 0 where no connection is known; `conn` is the register of the level before. -/
structure Search where
  dist : Nat → Nat
  conn : Nat → Nat
  connCount : Nat
  correctSizeTempsFound : Nat
  last : Option Nat

namespace Routing
variable (routing : Routing)

def start : Search := ⟨fun _ => 0, fun _ => 0, 0, 0, none⟩

/-- The registers that are connected to the source. -/
def firstLevel : List Nat → Search → Search
  | [], s => s
  | i :: rest, s =>
    if !routing.wide i then firstLevel rest s
    else
      let s := { s with correctSizeTempsFound := s.correctSizeTempsFound + 1 }
      if routing.fromSource i then
        let s := { s with dist := Function.update s.dist i 1 }
        if routing.toDestination i then { s with last := some i } else firstLevel rest s
      else firstLevel rest s

/-- The registers of the level before from which register `i` can be reached. -/
def connect (level i : Nat) : List Nat → Search → Search
  | [], s => s
  | j :: rest, s =>
    if s.dist j == level - 1 && routing.between j i then
      let s := { s with
        dist := Function.update s.dist i level
        connCount := s.connCount + 1
        conn := Function.update s.conn i j }
      if routing.toDestination i then { s with last := some i } else connect level i rest s
    else connect level i rest s

def nextLevel (level : Nat) : List Nat → Search → Search
  | [], s => s
  | i :: rest, s =>
    if s.last.isSome then s
    else if s.dist i == 0 && routing.wide i then
      nextLevel level rest (routing.connect level i (List.range routing.count)
        { s with correctSizeTempsFound := s.correctSizeTempsFound + 1 })
    else nextLevel level rest s

/-- Levels until the destination is found or a level has no register. -/
def levels : Nat → Nat → Search → Option (Search × Nat)
  | 0, _, _ => none
  | fuel + 1, level, s =>
    if s.last.isSome then some (s, level)
    else
      let s := routing.nextLevel (level + 1) (List.range routing.count) { s with connCount := 0 }
      if s.connCount = 0 then some (s, level + 1) else levels fuel (level + 1) s

/-- The search, and the level at which it has stopped. -/
def search : Option (Search × Nat) :=
  routing.levels (routing.count + 2) 1 (routing.firstLevel (List.range routing.count) start)

end Routing

/-- The registers from the first one of the chain to the last. -/
def trace (conn : Nat → Nat) : Nat → Nat → List Nat
  | 0, i => [i]
  | k + 1, i => trace conn k (conn i) ++ [i]

/-! ## Copies -/

/-- `canTransportImmediate` is that of the resource manager, for any bus of the
machine. `rawSource` is the register that a move reads once the copy before it
is bypassed, if the dependence graph allows that. -/
structure Adder where
  machine : Machine
  tempRegs : List Register
  canTransportImmediate : Move → Bool
  rawSource : Move → Option Register

/-- The move after copies have been added, and the moves added. -/
structure Insertion where
  move : Move
  added : List Move
  count : Nat

/-- What has to be connected for a move: nothing, an immediate and a port, or one of pairs of ports. -/
inductive Transport where
  | free
  | immediate (immediate : TerminalImmediate) (destinationPort : Port)
  | ports (pairs : List (Port × Port))

namespace Adder
variable (adder : Adder)

def registerPorts (i : Nat) : List Port := (adder.tempRegs[i]?.map (·.file.ports)).getD []

def registerWidth (i : Nat) : Nat := (adder.tempRegs[i]?.map (·.file.width)).getD 0

def routing (sourcePort destinationPort : Port) : Routing where
  count := adder.tempRegs.length
  wide i := !decide (adder.registerWidth i < min sourcePort.width destinationPort.width)
  fromSource i := adder.machine.arePortsConnected [sourcePort] (adder.registerPorts i)
  between j i := adder.machine.arePortsConnected (adder.registerPorts j) (adder.registerPorts i)
  toDestination i := adder.machine.arePortsConnected (adder.registerPorts i) [destinationPort]

/-- The copies between two ports, counted only. -/
def countCopies (sourcePort destinationPort : Port) : Except CopyError (ℕ∞) :=
  if adder.machine.isConnected sourcePort destinationPort then .ok 0
  else if adder.tempRegs.isEmpty then .ok ⊤
  else
    match (adder.routing sourcePort destinationPort).search with
    | none => .error .aborted
    | some (s, regsRequired) =>
      if s.correctSizeTempsFound = 0 then .error .illegalProgram else .ok regsRequired

/-- The moves between the registers of a chain. -/
def intermediateMoves (move : Move) : List Register → List Move
  | source :: destination :: rest =>
    { move with source := .register source, destination := .register destination } ::
      intermediateMoves move (destination :: rest)
  | _ => []

/-- The move through the registers of a chain: the last part of an operand move, the first one of others. -/
def split (move : Move) (first : Register) (registers : List Register) (last : Register) : Insertion :=
  match move.destination with
  | .unitPort _ _ =>
    ⟨{ move with source := .register last },
      { move with destination := .register first } :: intermediateMoves move registers, registers.length⟩
  | _ =>
    ⟨{ move with destination := .register first },
      intermediateMoves move registers ++ [{ move with source := .register last }], registers.length⟩

/-- The registers of a chain in turn, each with a port that is connected to the next one. -/
def connectedRegisters (destinationPorts : List Port) : List Nat → Except CopyError (List Register)
  | [] => .ok []
  | i :: rest => do
    let registers ← connectedRegisters destinationPorts rest
    let next := (registers.head?.map (·.file.ports)).getD destinationPorts
    match adder.tempRegs[i]? with
    | none => throw .aborted
    | some register =>
      if register.file.ports.any fun port => adder.machine.arePortsConnected [port] next then
        return register :: registers
      else throw .aborted

/-- The move along a chain. -/
def splitAlong (move : Move) (destinationPort : Port) (chain : List Nat) : Except CopyError Insertion := do
  let registers ← adder.connectedRegisters [destinationPort] chain
  match registers.head?, registers.getLast? with
  | some first, some last => return split move first registers last
  | _, _ => throw .aborted

/-- The copy that an operand needs may be bypassed; an operand that needs none does not come here. -/
def bypassed (move : Move) (destinationPort : Port) (neededCopies : Nat) : Except CopyError (Option Insertion) :=
  match move.destination with
  | .unitPort _ _ =>
    if neededCopies = 0 then .error .aborted
    else if neededCopies = 1 then
      .ok ((adder.rawSource move).bind fun register =>
        if adder.machine.arePortsConnected register.file.ports [destinationPort] then
          some ⟨{ move with source := .register register }, [], 0⟩
        else none)
    else .ok none
  | _ => .ok none

/-- The copies between two ports, added. -/
def addCopies (move : Move) (sourcePort destinationPort : Port) (neededCopies : Nat) : Except CopyError Insertion :=
  if adder.machine.isConnected sourcePort destinationPort then .ok ⟨move, [], 0⟩
  else if adder.tempRegs.isEmpty then .error .illegalProgram
  else
    match (adder.routing sourcePort destinationPort).search with
    | none => .error .aborted
    | some (s, regsRequired) =>
      if s.correctSizeTempsFound = 0 then .error .illegalProgram
      else
        match s.last with
        | none => .error .illegalMachine
        | some last =>
          match adder.bypassed move destinationPort neededCopies with
          | .error e => .error e
          | .ok (some insertion) => .ok insertion
          | .ok none => adder.splitAlong move destinationPort (trace s.conn (regsRequired - 1) last)

/-! ### Immediates -/

/-- The registers for the immediate and for the destination, and the number of those that are wide enough. -/
structure ImmediateTargets where
  immediateTarget : Option Register
  targetConnected : Option Register
  correctSizeTempsFound : Nat

def immediateTargets (immediate : TerminalImmediate) (destinationPort : Port) :
    List Register → ImmediateTargets → ImmediateTargets
  | [], t => t
  | register :: rest, t =>
    if register.file.width < adder.machine.requiredImmediateWidth false immediate then
      immediateTargets immediate destinationPort rest t
    else
      let t := { t with correctSizeTempsFound := t.correctSizeTempsFound + 1 }
      let t := if adder.machine.canTransportImmediate immediate register.file.ports then
          { t with immediateTarget := some register }
        else t
      if adder.machine.arePortsConnected register.file.ports [destinationPort] then
        let t := { t with targetConnected := some register }
        if t.immediateTarget.map (·.file) = some register.file then t
        else immediateTargets immediate destinationPort rest t
      else immediateTargets immediate destinationPort rest t

/-- The registers of the chain of an immediate, where the destination is connected. -/
def immediateChain (immediate : TerminalImmediate) (destinationPort : Port) :
    Except CopyError (Option (Option Register × List Register)) :=
  if adder.tempRegs.isEmpty then .error .illegalProgram
  else
    let t := adder.immediateTargets immediate destinationPort adder.tempRegs ⟨none, none, 0⟩
    if t.correctSizeTempsFound = 0 then .error .aborted
    else
      match t.targetConnected with
      | none => .ok none
      | some target =>
        if t.immediateTarget.map (·.file) = some target.file ∨ adder.machine.immediateUnits ≠ [] then
          .ok (some (some target, []))
        else .ok (some (t.immediateTarget, [target]))

def countCopiesImmediate (immediate : TerminalImmediate) (destinationPort : Port) : Except CopyError (ℕ∞) :=
  (adder.immediateChain immediate destinationPort).map fun chain =>
    match chain with
    | none => ⊤
    | some (_, rest) => ((rest.length + 1 : Nat) : ℕ∞)

def addCopiesImmediate (move : Move) (immediate : TerminalImmediate) (destinationPort : Port) :
    Except CopyError Insertion := do
  match ← adder.immediateChain immediate destinationPort with
  | none => throw .illegalMachine
  | some (none, _) => throw .illegalMachine
  | some (some first, rest) =>
    let last := rest.getLastD first
    return ⟨{ move with source := .register last },
      { move with destination := .register first } :: intermediateMoves move (first :: rest), rest.length + 1⟩

/-! ### Moves -/

def unitPort (unit : FunctionUnit) (operation : String) (index : Nat) (unbound : CopyError) : Except CopyError Port :=
  match (unit.operation operation).bind (·.port index) with
  | some port => .ok port
  | none => .error unbound

/-- Only for an immediate it is checked that the port is bound. -/
def destinationPorts (unit : FunctionUnit) (move : Move) : Except CopyError (List Port) :=
  match move.destination with
  | .register register => .ok (register.file.ports.filter (·.inputSocket.isSome))
  | .unitPort operation index =>
    let unbound := match move.source with
      | .immediate _ => CopyError.illegalProgram
      | _ => .aborted
    (unitPort unit operation index unbound).map ([·])
  | .returnAddress => .ok [adder.machine.returnAddressPort]

def transport (unit : FunctionUnit) (move : Move) : Except CopyError Transport := do
  let dstPorts ← adder.destinationPorts unit move
  match move.source with
  | .register register =>
    return .ports ((register.file.ports.filter (·.outputSocket.isSome)).product dstPorts)
  | .unitPort operation index => do
    let srcPort ← unitPort unit operation index .aborted
    return .ports ([srcPort].product dstPorts)
  | .returnAddress => return .ports ([adder.machine.returnAddressPort].product dstPorts)
  | .immediate immediate =>
    match move.destination, dstPorts with
    | .register _, _ => return .free
    | _, destPort :: _ =>
      if adder.machine.canTransportImmediate immediate [destPort] then return .free
      else if !adder.canTransportImmediate move &&
          adder.machine.immediateUnits.any (fun iu => adder.machine.arePortsConnected iu.ports [destPort]) then
        return .free
      else return .immediate immediate destPort
    | _, [] => throw .aborted

/-- The fewest copies over the pairs of ports, and the first pair that needs so many; 0 ends the loop. -/
def bestConnection : List (Port × Port) → ℕ∞ → Option (Port × Port) →
    Except CopyError (ℕ∞ × Option (Port × Port))
  | [], registersRequired, best => .ok (registersRequired, best)
  | pair :: pairs, registersRequired, best => do
    let regCount ← adder.countCopies pair.1 pair.2
    if regCount = 0 then return (0, best)
    else if regCount < registersRequired then bestConnection pairs regCount (some pair)
    else bestConnection pairs registersRequired best

/-- `addConnectionRegisterCopies` of a move and a unit, counting only. -/
def countMoveCopies (unit : FunctionUnit) (move : Move) : Except CopyError (ℕ∞) := do
  match ← adder.transport unit move with
  | .free => return 0
  | .immediate immediate destinationPort => adder.countCopiesImmediate immediate destinationPort
  | .ports pairs =>
    let r ← adder.bestConnection pairs ⊤ none
    return r.1

def addMoveCopies (unit : FunctionUnit) (neededCopies : Nat) (move : Move) : Except CopyError Insertion := do
  match ← adder.transport unit move with
  | .free => return ⟨move, [], 0⟩
  | .immediate immediate destinationPort => adder.addCopiesImmediate move immediate destinationPort
  | .ports pairs =>
    let r ← adder.bestConnection pairs ⊤ none
    if r.1 = 0 then return ⟨move, [], 0⟩
    else
      match r.2 with
      | none => throw .illegalMachine
      | some pair => adder.addCopies move pair.1 pair.2 neededCopies

/-! ### Operations -/

/-- `addRegisterCopies`, counting only. -/
def countRegisterCopies (unit : FunctionUnit) : List Move → Except CopyError (ℕ∞)
  | [] => .ok 0
  | move :: moves => do
    let count ← adder.countMoveCopies unit move
    if count = ⊤ then return ⊤
    else
      let rest ← countRegisterCopies unit moves
      return count + rest

def addRegisterCopies (unit : FunctionUnit) (neededCopies : Nat) (operation : ProgramOperation) :
    Except CopyError (List Insertion × List Insertion) := do
  let inputs ← operation.inputMoves.mapM (adder.addMoveCopies unit neededCopies)
  let outputs ← operation.outputMoves.mapM (adder.addMoveCopies unit neededCopies)
  return (inputs, outputs)

/-- A move with annotations allows the units of these only. -/
def isAllowedUnit (unit : FunctionUnit) (operation : ProgramOperation) : Bool :=
  operation.moves.all fun move => move.allowedUnits.isEmpty || move.allowedUnits.contains unit.name

/-- The units that support the operation and are allowed. -/
def units (operation : ProgramOperation) : List FunctionUnit :=
  adder.machine.units.filter fun unit => unit.hasOperation operation.name && isAllowedUnit unit operation

def requiredRegisterCopiesForEachFU (operation : ProgramOperation) :
    Except CopyError (List (FunctionUnit × ℕ∞)) :=
  (adder.units operation).mapM fun unit => do
    let count ← adder.countRegisterCopies unit operation.moves
    return (unit, count)

/-- The first unit with the fewest copies, if not all have `INT_MAX`. -/
def minimum : List (FunctionUnit × ℕ∞) → Option (FunctionUnit × ℕ∞) →
    Option (FunctionUnit × ℕ∞)
  | [], best => best
  | (unit, copies) :: rest, best =>
    if copies < (best.map (·.2)).getD ⊤ then
      if copies = 0 then some (unit, 0) else minimum rest (some (unit, copies))
    else minimum rest best

/-- The units without further copies become candidates, unless all units are. -/
def addCandidateSetAnnotations (operation : ProgramOperation) : Except CopyError ProgramOperation := do
  let required ← adder.requiredRegisterCopiesForEachFU operation
  if required.all (·.2 == 0) then return operation
  else
    let candidates := (required.filter (·.2 == 0)).map (·.1.name)
    let annotate (move : Move) := { move with candidateUnits := move.candidateUnits ++ candidates }
    return { operation with
      inputMoves := operation.inputMoves.map annotate
      outputMoves := operation.outputMoves.map annotate }

/-- The unit chosen, the copies added for it and the operation afterwards. -/
structure AddedRegisterCopies where
  unit : FunctionUnit
  copies : List Insertion
  inserted : ProgramOperation
  operation : ProgramOperation

def addMinimumRegisterCopies (operation : ProgramOperation) : Except CopyError AddedRegisterCopies := do
  let required ← adder.requiredRegisterCopiesForEachFU operation
  match minimum required none with
  | none => throw .illegalMachine
  | some (unit, min) =>
    if min = 0 then
      let annotated ← adder.addCandidateSetAnnotations operation
      return ⟨unit, [], operation, annotated⟩
    else
      let added ← adder.addRegisterCopies unit min.toNat operation
      let inserted := { operation with
        inputMoves := added.1.map (·.move)
        outputMoves := added.2.map (·.move) }
      let annotated ← adder.addCandidateSetAnnotations inserted
      return ⟨unit, added.1 ++ added.2, inserted, annotated⟩

end Adder

end Tce.RegisterCopyAdder
