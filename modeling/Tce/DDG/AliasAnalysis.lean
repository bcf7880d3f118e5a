import Tce.Base.WhileLoop
import Tce.DDG.MoveRuns

/-!
# Constant alias analysis

Two memory operations are compared by their addresses, when each is a constant
that came to the address operand by copies between registers.
-/

namespace Tce.DDG

inductive AliasingResult where
  | ALIAS_FALSE
  | ALIAS_TRUE
  | ALIAS_UNKNOWN
  deriving DecidableEq, Repr

inductive AliasFault where
  | InvalidData (message : String)
  | OutOfRange (message : String)
  | KeyNotFound (message : String)
  deriving DecidableEq, Repr

structure Operand where
  isAddress : Bool
  memoryUnits : Int
  deriving DecidableEq, Repr

/-- The end nodes of each DAG of an operation are operations, or others. -/
inductive Operation where
  | mk (usesMemory : Bool) (inputs : List Operand) (dags : List (List (Option Operation)))

namespace Operation

def usesMemory : Operation → Bool
  | mk usesMemory _ _ => usesMemory

def inputs : Operation → List Operand
  | mk _ inputs _ => inputs

def numberOfInputs (op : Operation) : Nat := op.inputs.length

end Operation

structure ProgramOperation (N : Type) where
  operation : Operation
  inputMoves : Nat → Option (List N)

/-- The moves to an input; the first one has the index 1. -/
def ProgramOperation.inputNode {N : Type} (po : ProgramOperation N) (index : Nat) : Except AliasFault (List N) :=
  if index < 1 ∨ po.operation.numberOfInputs < index then .error (.OutOfRange "InputNode index out of range.")
  else
    match po.inputMoves index with
    | some mns => .ok mns
    | none => .error (.KeyNotFound "InputNode index not found.")

/-! ## Memory operations -/

mutual

/-- The size of the memory access, 0 when it is not known. -/
def mausOfOperation : Operation → Except AliasFault Int
  | .mk usesMemory inputs dags =>
    if !usesMemory then .error (.InvalidData "does not use mem!")
    else
      match inputs.find? (·.isAddress) with
      | some operand => .ok operand.memoryUnits
      | none => (mausOfDags dags).getD (.ok 0)

def mausOfDags : List (List (Option Operation)) → Option (Except AliasFault Int)
  | [] => none
  | endNodes :: dags => (mausOfEndNodes endNodes).or (mausOfDags dags)

/-- Only one operation of a DAG uses memory. -/
def mausOfEndNodes : List (Option Operation) → Option (Except AliasFault Int)
  | [] => none
  | none :: endNodes => mausOfEndNodes endNodes
  | some tailOp :: endNodes => if tailOp.usesMemory then some (mausOfOperation tailOp) else mausOfEndNodes endNodes

end

/-- The move to the address operand, `none` when there is not one. -/
def addressOperandMove {N : Type} (po : ProgramOperation N) : Except AliasFault (Option N) :=
  if !po.operation.usesMemory then .ok none
  else
    match po.operation.inputs.findIdx? (·.isAddress) with
    | none => .ok none
    | some i =>
      match po.inputNode (i + 1) with
      | .error fault => .error fault
      | .ok [mn] => .ok (some mn)
      | .ok _ => .ok none

/-- The bits of an address above those within an access of `maus`. -/
def maskedIndex (maus : Int) (index : BitVec 32) : BitVec 32 := index &&& ~~~BitVec.ofInt 32 (maus - 1)

def compareIndeces {N : Type} (index1 index2 : BitVec 32) (pop1 pop2 : ProgramOperation N) :
    Except AliasFault AliasingResult := do
  let maus1 ← mausOfOperation pop1.operation
  let maus2 ← mausOfOperation pop2.operation
  if maus1 = 0 ∨ maus2 = 0 then return .ALIAS_UNKNOWN
  if index1 = index2 then return if maus1 ≠ maus2 then .ALIAS_UNKNOWN else .ALIAS_TRUE
  let maus := max maus1 maus2
  return if maskedIndex maus index1 = maskedIndex maus index2 then .ALIAS_UNKNOWN else .ALIAS_FALSE

/-! ## Addresses -/

namespace MoveGraph
variable {N : Type} [DecidableEq N] (g : MoveGraph N)

def isRegisterRead (e : Edge N) : Bool :=
  e.dependenceType = .DEP_RAW && e.edgeReason = .EDGE_REGISTER && !e.guardUse && !e.headPseudo

/-- The tail of the only read edge, `source` being what was found before. -/
def onlyTail : (source : Option N) → List (Edge N) → Option N
  | source, [] => source
  | source, e :: edges =>
    if isRegisterRead e then
      if !e.tailPseudo && source.isNone then onlyTail (some e.tail) edges else none
    else onlyTail source edges

def onlyRegisterRawSource (n : N) : Option N := onlyTail none (g.inEdges n)

def copiesRegister (rawSrc : Option N) : Bool := (rawSrc.bind g.move).any (·.source.isGPR)

def previousSource (rawSrc : Option N) : Option N := rawSrc.bind g.onlyRegisterRawSource

/-- The move that the address of an operation came from. -/
def traceAddress (fuel : Nat) (po : ProgramOperation N) : ExceptT AliasFault Option (Option N) :=
  match addressOperandMove po with
  | .error fault => throw fault
  | .ok start => ExceptT.lift (WhileLoop.run g.copiesRegister g.previousSource fuel start)

/-- The immediate that is moved by other moves than calls. -/
def immediateOf (rawSrc : Option N) : Option (BitVec 32) :=
  match rawSrc.bind g.move with
  | some m => if m.isCall then none else match m.source with
    | .immediate value => some value
    | _ => none
  | none => none

def isAddressTraceable (fuel : Nat) (po : ProgramOperation N) : ExceptT AliasFault Option Bool := do
  return (g.immediateOf (← g.traceAddress fuel po)).isSome

def analyze (fuel : Nat) (pop1 pop2 : ProgramOperation N) : ExceptT AliasFault Option AliasingResult := do
  if ← g.isAddressTraceable fuel pop1 then
    if ← g.isAddressTraceable fuel pop2 then
      let rawSrc1 ← g.traceAddress fuel pop1
      let rawSrc2 ← g.traceAddress fuel pop2
      match g.immediateOf rawSrc1, g.immediateOf rawSrc2 with
      | some addr1, some addr2 => ExceptT.mk (some (compareIndeces addr1 addr2 pop1 pop2))
      | _, _ => return .ALIAS_UNKNOWN
    else return .ALIAS_UNKNOWN
  else return .ALIAS_UNKNOWN

end MoveGraph

end Tce.DDG
