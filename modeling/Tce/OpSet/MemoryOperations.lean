import Tce.OpSet.BaseOperations
import Tce.Storage.CommittedValues

/-!
# Memory operations

The loads and stores of the base operations, and their forms of several elements,
which are graphs that execute them one after another. An exception ends a graph;
what it has stored before is left to the memory.
-/

namespace Tce.OpSet

open OSAL Storage
open BaseOperation (io temp)

/-- What ends an access: an error of the operation, or `OutOfRange`. -/
inductive MemoryFault where
  | runtimeError (message : String)
  | outOfRange
  deriving DecidableEq, Repr

/-- The memory after an access, and its result. The host may define none. -/
abbrev MemoryResult (α : Type) := Option (Memory × Except MemoryFault α)

def alignmentError (address : Word) : MemoryFault :=
  .runtimeError ("Memory access alignment error, address:  " ++ toString address.toInt)

/-! ## Triggers -/

/-- The result of a read. -/
def readResult {α : Type} (ofNat : Nat → α) (result : Memory × Outcome) : Memory × Except MemoryFault α :=
  (result.1, match result.2 with
    | .value data => .ok (ofNat data)
    | _ => .error .outOfRange)

def writeResult (result : Memory × Outcome) : Memory × Except MemoryFault Unit :=
  (result.1, match result.2 with
    | .done => .ok ()
    | _ => .error .outOfRange)

/-- An access to an address that is not aligned throws. -/
def whenAligned {α : Type} (size : Nat) (address : Word) (m : Memory) (access : MemoryResult α) : MemoryResult α :=
  if address.toNat % size ≠ 0 then some (m, .error (alignmentError address)) else access

/-- A load of units that makes a word of them. -/
def load (size : Nat) (extend : Memory → Word → Word) (address : Word) (m : Memory) : MemoryResult Word :=
  whenAligned size address m ((m.read address size).map (readResult fun data => extend m (BitVec.ofNat 32 data)))

def ldq : Word → Memory → MemoryResult Word := load 1 fun m data => signExtend data m.MAUSize

def ldqu : Word → Memory → MemoryResult Word := load 1 fun m data => zeroExtend data m.MAUSize

def ldh : Word → Memory → MemoryResult Word := load 2 fun m data => signExtend data (m.MAUSize * 2)

def ldhu : Word → Memory → MemoryResult Word := load 2 fun m data => zeroExtend data (m.MAUSize * 2)

def ldw : Word → Memory → MemoryResult Word := load 4 fun _ data => data

def ldd (address : Word) (m : Memory) : MemoryResult (BitVec 64) :=
  whenAligned 4 address m ((m.readDoubleWord address).map (readResult (BitVec.ofNat 64)))

def store (size : Nat) (address data : Word) (m : Memory) : MemoryResult Unit :=
  whenAligned size address m ((m.write address size data).map writeResult)

def stq : Word → Word → Memory → MemoryResult Unit := store 1

def sth : Word → Word → Memory → MemoryResult Unit := store 2

def stw : Word → Word → Memory → MemoryResult Unit := store 4

def std (address : Word) (data : BitVec 64) (m : Memory) : MemoryResult Unit :=
  whenAligned 4 address m ((m.writeDoubleWord address data).map writeResult)

inductive Load where
  | LDQ | LDQU | LDH | LDHU | LDW
  deriving DecidableEq, Repr

inductive Store where
  | STQ | STH | STW
  deriving DecidableEq, Repr

namespace Load

def trigger : Load → Word → Memory → MemoryResult Word
  | LDQ => ldq
  | LDQU => ldqu
  | LDH => ldh
  | LDHU => ldhu
  | LDW => ldw

/-- The units of an element, by which the address of the next one is greater. -/
def size : Load → Nat
  | LDQ | LDQU => 1
  | LDH | LDHU => 2
  | LDW => 4

def name : Load → String
  | LDQ => "ldq"
  | LDQU => "ldqu"
  | LDH => "ldh"
  | LDHU => "ldhu"
  | LDW => "ldw"

end Load

namespace Store

def trigger : Store → Word → Word → Memory → MemoryResult Unit
  | STQ => stq
  | STH => sth
  | STW => stw

def size : Store → Nat
  | STQ => 1
  | STH => 2
  | STW => 4

def name : Store → String
  | STQ => "stq"
  | STH => "sth"
  | STW => "stw"

end Store

/-! ## Several elements -/

inductive Elements where
  | one | two | four | eight
  deriving DecidableEq, Repr

def Elements.count : Elements → Nat
  | one => 1
  | two => 2
  | four => 4
  | eight => 8

/-- The trigger semantics of the forms of several elements, as in `base.opp`. -/
def elementStatements (name : String) (size : Nat) : Elements → List Statement
  | .one => [.EXEC_OPERATION name [io 1, io 2]]
  | .two =>
    [.declaration ["tmp"],
      .EXEC_OPERATION name [io 1, io 2],
      .EXEC_OPERATION "add" [io 1, .integer size, temp "tmp"],
      .EXEC_OPERATION name [temp "tmp", io 3]]
  | .four =>
    [.declaration ["tmp"],
      .EXEC_OPERATION name [io 1, io 2],
      .EXEC_OPERATION "add" [io 1, .integer size, temp "tmp"],
      .EXEC_OPERATION name [temp "tmp", io 3],
      .EXEC_OPERATION "add" [temp "tmp", .integer size, temp "tmp"],
      .EXEC_OPERATION name [temp "tmp", io 4],
      .EXEC_OPERATION "add" [temp "tmp", .integer size, temp "tmp"],
      .EXEC_OPERATION name [temp "tmp", io 5]]
  | .eight =>
    [.declaration ["tmp"],
      .EXEC_OPERATION name [io 1, io 2],
      .EXEC_OPERATION "add" [io 1, .integer size, temp "tmp"],
      .EXEC_OPERATION name [temp "tmp", io 3],
      .EXEC_OPERATION "add" [temp "tmp", .integer size, temp "tmp"],
      .EXEC_OPERATION name [temp "tmp", io 4],
      .EXEC_OPERATION "add" [temp "tmp", .integer size, temp "tmp"],
      .EXEC_OPERATION name [temp "tmp", io 5],
      .EXEC_OPERATION "add" [temp "tmp", .integer size, temp "tmp"],
      .EXEC_OPERATION name [temp "tmp", io 6],
      .EXEC_OPERATION "add" [temp "tmp", .integer size, temp "tmp"],
      .EXEC_OPERATION name [temp "tmp", io 7],
      .EXEC_OPERATION "add" [temp "tmp", .integer size, temp "tmp"],
      .EXEC_OPERATION name [temp "tmp", io 8],
      .EXEC_OPERATION "add" [temp "tmp", .integer size, temp "tmp"],
      .EXEC_OPERATION name [temp "tmp", io 9]]

/-- The operations that the graphs execute. -/
def memoryPool : String → Option Operation
  | "add" => some ⟨"add", 2, 1, false⟩
  | "ldq" => some ⟨"ldq", 1, 1, true⟩
  | "ldqu" => some ⟨"ldqu", 1, 1, true⟩
  | "ldh" => some ⟨"ldh", 1, 1, true⟩
  | "ldhu" => some ⟨"ldhu", 1, 1, true⟩
  | "ldw" => some ⟨"ldw", 1, 1, true⟩
  | "stq" => some ⟨"stq", 2, 0, true⟩
  | "sth" => some ⟨"sth", 2, 0, true⟩
  | "stw" => some ⟨"stw", 2, 0, true⟩
  | _ => none

/-- The memory, as long as no access has thrown. -/
abbrev MemoryContext := Option (Memory × Option MemoryFault)

/-- What an access assigns to its output. -/
def loaded : MemoryResult Word → Word
  | some (_, .ok word) => word
  | _ => 0

def contextAfter {α : Type} : MemoryResult α → MemoryContext
  | some (m, .ok _) => some (m, none)
  | some (m, .error fault) => some (m, some fault)
  | none => none

/-- After an exception nothing is executed. -/
def executeIn {α : Type} (access : Memory → MemoryResult α) : MemoryContext → MemoryContext × MemoryResult α
  | some (m, none) => (contextAfter (access m), access m)
  | context => (context, none)

/-- The operations, on their inputs from one on. -/
def memoryMachine : Machine Word MemoryContext where
  constant value := BitVec.ofInt 32 value
  simulateTrigger operation inputs context :=
    let uint (operand : Nat) : Word := inputs.getD (operand - 1) 0
    let loading (op : Load) :=
      let result := executeIn (op.trigger (uint 1)) context
      ([loaded result.2], result.1)
    let storing (op : Store) := ([], (executeIn (op.trigger (uint 1) (uint 2)) context).1)
    match operation.name with
    | "add" => ([uint 1 + uint 2], context)
    | "ldq" => loading .LDQ
    | "ldqu" => loading .LDQU
    | "ldh" => loading .LDH
    | "ldhu" => loading .LDHU
    | "ldw" => loading .LDW
    | "stq" => storing .STQ
    | "sth" => storing .STH
    | "stw" => storing .STW
    | _ => ([], context)

/-- The operands and the memory after `OperationDAGBehavior` of the statements. -/
def simulateStatements (operation : Operation) (statements : List Statement) (operands : Nat → Word) (m : Memory) :
    Option ((Nat → Word) × MemoryContext) :=
  match OperationDAGBuilder.parse memoryPool operation statements with
  | .error _ => none
  | .ok dag =>
    (OperationDAGBehavior.new dag).bind fun behavior =>
      behavior.simulateTrigger memoryMachine operation.operandCount operands (some (m, none))

/-- What a graph gives when it is through or an exception has ended it. -/
def graphResult {α : Type} (outputs : (Nat → Word) → α) (result : (Nat → Word) × MemoryContext) : MemoryResult α :=
  result.2.map fun context =>
    (context.1, match context.2 with
      | some fault => .error fault
      | none => .ok (outputs result.1))

/-- The operands with these values, from one on. -/
def operandValues (values : List Word) (operand : Nat) : Word := values.getD (operand - 1) 0

/-- A load of some elements; that of one is the trigger of the operation. -/
def Load.elements (op : Load) (n : Elements) (address : Word) (m : Memory) : MemoryResult (List Word) :=
  match n with
  | .one => (op.trigger address m).map fun r => (r.1, r.2.map ([·]))
  | n =>
    (simulateStatements ⟨"", 1, n.count, true⟩ (elementStatements op.name op.size n) (operandValues [address]) m).bind
      (graphResult fun operands => (List.range n.count).map fun k => operands (k + 2))

/-- A store of the first elements of a list. -/
def Store.elements (op : Store) (n : Elements) (address : Word) (data : List Word) (m : Memory) : MemoryResult Unit :=
  match n with
  | .one => op.trigger address (data.getD 0 0) m
  | n =>
    (simulateStatements ⟨"", n.count + 1, 0, true⟩ (elementStatements op.name op.size n)
      (operandValues (address :: data)) m).bind (graphResult fun _ => ())

/-! ## Runs -/

inductive MemoryAccess where
  | load (op : Load) (n : Elements) (address : Word)
  | loadDouble (address : Word)
  | store (op : Store) (n : Elements) (address : Word) (data : List Word)
  | storeDouble (address : Word) (data : BitVec 64)
  | advanceClock

inductive Answer where
  | done
  | words (values : List Word)
  | doubleWord (bits : BitVec 64)
  | fault (fault : MemoryFault)
  deriving DecidableEq, Repr

def answerWith {α : Type} (answer : α → Answer) (result : Memory × Except MemoryFault α) : Memory × Answer :=
  (result.1, match result.2 with
    | .ok value => answer value
    | .error fault => .fault fault)

def MemoryAccess.perform (m : Memory) : MemoryAccess → Option (Memory × Answer)
  | load op n address => (op.elements n address m).map (answerWith .words)
  | loadDouble address => (ldd address m).map (answerWith .doubleWord)
  | store op n address data => (op.elements n address data m).map (answerWith fun _ => .done)
  | storeDouble address data => (std address data m).map (answerWith fun _ => .done)
  | advanceClock => m.advanceClock.map fun r => (r.1, .done)

end Tce.OpSet
