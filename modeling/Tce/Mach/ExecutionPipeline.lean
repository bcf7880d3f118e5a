import Mathlib.Algebra.Group.Int.Defs
import Tce.Base.CycleTable

/-!
# Execution pipelines

The pipelines of the operations of a function unit: which resources an operation uses in each
cycle, and which operands it reads and writes. The unit has a pipeline element for each resource.
-/

namespace Tce.TTAMachine
open Base.CycleTable

inductive PipelineException where
  | OutOfRange
  | InvalidName
  | StartTooLate
  | NotAvailable
  | WrongOperandType
  | ObjectStateLoadingException
  deriving DecidableEq, Repr

/-- How a call ends, and in which state. -/
inductive CallResult (σ : Type) where
  | done (s : σ)
  | threw (exception : PipelineException) (s : σ)
  | undefined
  deriving DecidableEq, Repr

def CallResult.state? {σ : Type} : CallResult σ → Option σ
  | done s | threw _ s => some s
  | undefined => none

structure ExecutionPipeline where
  resourceUsage : List (List String)
  opReads : List (List Int)
  opWrites : List (List Int)
  deriving DecidableEq, Repr

/-- The names of the pipeline elements, and the pipelines of the operations. -/
structure FunctionUnit where
  pipelineElements : List String
  pipelines : List ExecutionPipeline
  deriving DecidableEq, Repr

/-- `INT_MAX` -/
def intMax : Int := 2 ^ 31 - 1

namespace MachineTester

def isalpha (character : Char) : Bool :=
  (97 ≤ character.toNat && character.toNat ≤ 122) || (65 ≤ character.toNat && character.toNat ≤ 90)

def isdigit (character : Char) : Bool := 48 ≤ character.toNat && character.toNat ≤ 57

def isValidComponentName (name : String) : Bool :=
  match name.toList with
  | [] => false
  | first :: rest => isalpha first && rest.all fun character =>
      isalpha character || isdigit character || character = '_' || character = ':'

end MachineTester

namespace ExecutionPipeline
variable (p : ExecutionPipeline)

def empty : ExecutionPipeline := ⟨[], [], []⟩

/-- The tables have one length, as the assertions say. -/
def latency : Nat := p.resourceUsage.length

def resources (cycle : Nat) : List String := row p.resourceUsage cycle

def reads (cycle : Nat) : List Int := row p.opReads cycle

def writes (cycle : Nat) : List Int := row p.opWrites cycle

/-- Elements of a set of resources are ordered by `PipelineElement::Comparator`. -/
def insertResource (name : String) (start duration : Nat) : ExecutionPipeline :=
  { p with resourceUsage := insertAt (· > ·) name start duration p.resourceUsage }

def insertRead (operand : Int) (start duration : Nat) : ExecutionPipeline :=
  { p with opReads := insertAt (· < ·) operand start duration p.opReads }

def insertWrite (operand : Int) (start duration : Nat) : ExecutionPipeline :=
  { p with opWrites := insertAt (· < ·) operand start duration p.opWrites }

/-- The tables without a resource in some cycles. -/
def withoutResource (name : String) (start duration : Nat) : ExecutionPipeline :=
  { p with resourceUsage := removeAt name start duration p.resourceUsage }

/-- The tables without an operand in a cycle. -/
def withoutOperand (operand : Int) (cycle : Nat) : ExecutionPipeline :=
  { p with
    opReads := removeAt operand cycle 1 p.opReads
    opWrites := removeAt operand cycle 1 p.opWrites }

def resize (latency : Nat) : ExecutionPipeline where
  resourceUsage := Base.CycleTable.resize latency p.resourceUsage
  opReads := Base.CycleTable.resize latency p.opReads
  opWrites := Base.CycleTable.resize latency p.opWrites

/-- The loop of `adjustLatency` over the last cycles. -/
def trim (newLatency : Nat) : Nat → ExecutionPipeline → ExecutionPipeline
  | 0, p => p
  | cycle + 1, p =>
    if newLatency ≤ cycle ∧ p.resources cycle = [] ∧ p.reads cycle = [] ∧ p.writes cycle = [] then
      trim newLatency cycle (p.resize cycle)
    else p

def adjustLatency (newLatency : Nat) : ExecutionPipeline :=
  if p.latency < newLatency then p.resize newLatency
  else if newLatency < p.latency then trim newLatency p.latency p
  else p

def isOperandWritten (operand : Int) : Bool := (List.range p.latency).any fun cycle => operand ∈ p.writes cycle

def isOperandRead (operand : Int) : Bool := (List.range p.latency).any fun cycle => operand ∈ p.reads cycle

def usedResources : List String := (List.range p.latency).foldl (fun resources cycle =>
  (p.resources cycle).foldl (fun resources name => insertOrdered (· > ·) name resources) resources) []

/-- The loop of `latency` over the writes, from the last cycle down. -/
def latencyFrom (output : Int) : (cycle : Nat) → Option Nat
  | 0 => none
  | cycle + 1 => if output ∈ p.writes cycle then some (cycle + 1) else latencyFrom output cycle

/-- The latency of an output; none when it throws `IllegalParameters`. -/
def latencyOf (output : Int) : Option Nat := p.latencyFrom output p.latency

/-- None when it throws `IllegalParameters`. -/
def slack (input : Int) : Option Nat := (List.range p.latency).find? fun cycle => input ∈ p.reads cycle

/-- The first cycle from one on for which a test holds, or -1. -/
def findCycle (start : Nat) (test : Nat → Bool) : Int :=
  match (List.range' start (p.latency - start)).find? test with
  | some cycle => cycle
  | none => -1

def firstCycle : Int := p.findCycle 0 fun cycle => p.resources cycle ≠ [] || p.reads cycle ≠ []

/-! ## Checks -/

def checkStartCycle (startCycle : Int) : Option PipelineException :=
  if startCycle < 0 then some .OutOfRange
  else if 1 < startCycle then
    if p.latency = 0 then some .StartTooLate
    else if p.latency = 1 ∧ p.resources 0 = [] ∧ p.reads 0 = [] then some .StartTooLate
    else if 2 ≤ p.latency ∧ p.resources 0 = [] ∧ p.resources 1 = [] ∧ p.reads 0 = [] ∧ p.reads 1 = [] then
      some .StartTooLate
    else none
  else none

def checkDuration (duration : Int) : Option PipelineException := if duration < 1 then some .OutOfRange else none

def checkResourceName (name : String) : Option PipelineException :=
  if MachineTester.isValidComponentName name then none else some .InvalidName

def checkInputOperand (operand : Int) : Option PipelineException :=
  if operand < 1 then some .OutOfRange else if p.isOperandWritten operand then some .WrongOperandType else none

def checkOutputOperand (operand : Int) : Option PipelineException :=
  if operand < 1 then some .OutOfRange else if p.isOperandRead operand then some .WrongOperandType else none

/-- The cycles from `start` on that the tables have. -/
def cyclesAt (start duration : Int) : List Nat :=
  List.range' start.toNat (min (start + duration) p.latency - start).toNat

def checkOperandAvailability (operand start duration : Int) : Option PipelineException :=
  if (p.cyclesAt start duration).any fun cycle => operand ∈ p.reads cycle || operand ∈ p.writes cycle then
    some .NotAvailable
  else none

def firstCycleWithoutOperandUse (operand : Int) (cycle : Nat) : Int :=
  if p.firstCycle ≠ cycle then p.firstCycle
  else if 1 < (p.reads cycle).length ∨ ((p.reads cycle).length = 1 ∧ operand ∉ p.reads cycle) then cycle
  else if p.resources cycle ≠ [] then cycle
  else p.findCycle (cycle + 1) fun i => p.resources i ≠ [] || p.reads i ≠ []

end ExecutionPipeline

namespace FunctionUnit
variable (fu : FunctionUnit) (i : Nat)

/-- The pipeline of an operation. -/
def pipeline : ExecutionPipeline := fu.pipelines.getD i .empty

def setPipeline (p : ExecutionPipeline) : FunctionUnit := { fu with pipelines := fu.pipelines.set i p }

def hasPipelineElement (name : String) : Bool := fu.pipelineElements.contains name

def isResourceUsed (name : String) (cycle : Nat) : Bool :=
  fu.hasPipelineElement name && ((fu.pipeline i).resources cycle).contains name

/-- An element that no operation uses is deleted. -/
def cleanup (resource : String) : FunctionUnit :=
  if !fu.hasPipelineElement resource then fu
  else if (List.range fu.pipelines.length).any fun i => (List.range (fu.pipeline i).latency).any fun cycle =>
      fu.isResourceUsed i resource cycle then fu
  else { fu with pipelineElements := fu.pipelineElements.erase resource }

def addPipelineElement (name : String) : FunctionUnit :=
  if fu.hasPipelineElement name then fu else { fu with pipelineElements := fu.pipelineElements ++ [name] }

def checkResourceAvailability (resource : String) (start duration : Int) : Option PipelineException :=
  if !fu.hasPipelineElement resource then none
  else if ((fu.pipeline i).cyclesAt start duration).any fun cycle =>
      ((fu.pipeline i).resources cycle).contains resource then some .NotAvailable
  else none

def internalAddResourceUse (name : String) (start duration : Nat) : FunctionUnit :=
  let p := (fu.pipeline i).adjustLatency (start + duration)
  (fu.addPipelineElement name).setPipeline i (p.insertResource name start duration)

/-- The first check that fails throws. -/
def orThrow (checks : List (Option PipelineException)) (rest : CallResult FunctionUnit) : CallResult FunctionUnit :=
  match checks.findSome? id with
  | some exception => .threw exception fu
  | none => rest

/-- The sum of the cycles is an `int`. -/
def unlessOverflow (start duration : Int) (rest : CallResult FunctionUnit) : CallResult FunctionUnit :=
  if intMax < start + duration then .undefined else rest

def addResourceUse (name : String) (start duration : Int) : CallResult FunctionUnit :=
  let p := fu.pipeline i
  fu.orThrow [p.checkStartCycle start, ExecutionPipeline.checkDuration duration,
      ExecutionPipeline.checkResourceName name] <|
    unlessOverflow start duration <|
      fu.orThrow [fu.checkResourceAvailability i name start duration] <|
        .done (fu.internalAddResourceUse i name start.toNat duration.toNat)

def addPortRead (operand start duration : Int) : CallResult FunctionUnit :=
  let p := fu.pipeline i
  fu.orThrow [p.checkStartCycle start, ExecutionPipeline.checkDuration duration, p.checkInputOperand operand] <|
    unlessOverflow start duration <|
      fu.orThrow [p.checkOperandAvailability operand start duration] <|
        let q := if (p.latency : Int) < start + duration then p.adjustLatency (start + duration).toNat else p
        .done (fu.setPipeline i (q.insertRead operand start.toNat duration.toNat))

def addPortWrite (operand start duration : Int) : CallResult FunctionUnit :=
  let p := fu.pipeline i
  fu.orThrow [if start < 0 then some .OutOfRange else none, ExecutionPipeline.checkDuration duration,
      p.checkOutputOperand operand] <|
    unlessOverflow start duration <|
      fu.orThrow [p.checkOperandAvailability operand start duration] <|
        let q := if (p.latency : Int) < start + duration then p.adjustLatency (start + duration).toNat else p
        .done (fu.setPipeline i (q.insertWrite operand start.toNat duration.toNat))

/-- The first cycle in which anything but the resource is used or read. -/
def firstCycleWithoutResource (resource : String) : Int :=
  let p := fu.pipeline i
  if !fu.hasPipelineElement resource then p.firstCycle
  else p.findCycle 0 fun cycle => p.reads cycle ≠ [] || 1 < (p.resources cycle).length ||
    ((p.resources cycle).length = 1 && !(p.resources cycle).contains resource)

/-- The same with the resource left out in one cycle only. -/
def firstCycleWithoutResourceAt (resource : String) (cycle : Nat) : Int :=
  let p := fu.pipeline i
  if p.firstCycle ≠ cycle then p.firstCycle
  else if !fu.hasPipelineElement resource then p.firstCycle
  else if p.reads cycle ≠ [] then cycle
  else if 1 < (p.resources cycle).length ∨ ((p.resources cycle).length = 1 ∧ resource ∉ p.resources cycle) then cycle
  else p.findCycle (cycle + 1) fun k => p.reads k ≠ [] || p.resources k ≠ []

/-- Cycles from `start` on, up to the latency. -/
def internalRemoveResourceUse (name : String) (start duration : Nat) : FunctionUnit :=
  if !fu.hasPipelineElement name then fu
  else
    let p := fu.pipeline i
    let q := p.withoutResource name start (min (start + duration) p.latency - start)
    (fu.setPipeline i (q.adjustLatency 0)).cleanup name

def removeResourceUse (name : String) : CallResult FunctionUnit :=
  if !fu.hasPipelineElement name then .done fu
  else if 1 < fu.firstCycleWithoutResource i name then .threw .StartTooLate fu
  else .done (fu.internalRemoveResourceUse i name 0 (fu.pipeline i).latency)

def removeResourceUseAt (name : String) (cycle : Int) : CallResult FunctionUnit :=
  if !fu.hasPipelineElement name then .done fu
  else if cycle < 0 then .threw .OutOfRange fu
  else if (fu.pipeline i).latency ≤ cycle then .done fu
  else if (cycle = 0 ∨ cycle = 1) ∧ 1 < fu.firstCycleWithoutResourceAt i name cycle.toNat then .threw .StartTooLate fu
  else .done (fu.internalRemoveResourceUse i name cycle.toNat 1)

def removeAllResourceUses : FunctionUnit :=
  (fu.pipeline i).usedResources.foldl cleanup (fu.setPipeline i .empty)

def removeOperandUse (operand cycle : Int) : CallResult FunctionUnit :=
  let p := fu.pipeline i
  if cycle < 0 ∨ operand < 1 then .threw .OutOfRange fu
  else if p.latency ≤ cycle then .done fu
  else if 1 < p.firstCycleWithoutOperandUse operand cycle.toNat then .threw .StartTooLate fu
  else .done (fu.setPipeline i ((p.withoutOperand operand cycle.toNat).adjustLatency 0))

end FunctionUnit

/-- A call on a pipeline of the unit. -/
inductive PipelineCall where
  | addResourceUse (name : String) (start duration : Int)
  | addPortRead (operand start duration : Int)
  | addPortWrite (operand start duration : Int)
  | removeResourceUse (name : String)
  | removeResourceUseAt (name : String) (cycle : Int)
  | removeOperandUse (operand cycle : Int)
  | removeAllResourceUses
  deriving DecidableEq, Repr

namespace FunctionUnit

def call (fu : FunctionUnit) (i : Nat) : PipelineCall → CallResult FunctionUnit
  | .addResourceUse name start duration => fu.addResourceUse i name start duration
  | .addPortRead operand start duration => fu.addPortRead i operand start duration
  | .addPortWrite operand start duration => fu.addPortWrite i operand start duration
  | .removeResourceUse name => fu.removeResourceUse i name
  | .removeResourceUseAt name cycle => fu.removeResourceUseAt i name cycle
  | .removeOperandUse operand cycle => fu.removeOperandUse i operand cycle
  | .removeAllResourceUses => .done (fu.removeAllResourceUses i)

/-- A new unit, which may have elements already. -/
def create (pipelineElements : List String) (operationCount : Nat) : FunctionUnit :=
  ⟨pipelineElements, List.replicate operationCount .empty⟩

/-- Calls on the pipelines one after another, with the exceptions caught. -/
def run (fu : FunctionUnit) : List (Nat × PipelineCall) → Option FunctionUnit
  | [] => some fu
  | (i, call) :: calls => (fu.call i call).state?.bind fun fu => fu.run calls

end FunctionUnit

end Tce.TTAMachine
