import Mathlib.Logic.Function.Basic
import Tce.Base.Throwing

/-!
# Programs, procedures and instructions

The program object model: a program with its procedures, the code snippets and the
instructions that clients hold. Objects refer to each other, so all of them are in one
world under their identities. Only what addresses depend on is here.
-/

namespace Tce.POM

abbrev InstructionAddress := BitVec 32

abbrev SnippetId := Nat

abbrev InstructionId := Nat

/-- `positionInProcedure` is the cached index, `-1` before the first query. -/
structure Instruction where
  parent : Option SnippetId := none
  positionInProcedure : InstructionAddress := -1

/-- A `CodeSnippet`, or a `Procedure`; only procedures are ever registered in a program. -/
structure CodeSnippet where
  isProcedure : Bool
  isInProgram : Bool := false
  start : InstructionAddress := 0
  instructions : List InstructionId := []

namespace CodeSnippet

def endAddress (s : CodeSnippet) : InstructionAddress := s.start + BitVec.ofNat 32 s.instructions.length

/-- The index is an `int`, so it has to be one that is not negative. -/
def instructionAt (s : CodeSnippet) (address : InstructionAddress) : Option InstructionId :=
  let index := address - s.start
  if 0 ≤ index.toInt then s.instructions[index.toNat]? else none

end CodeSnippet

/-- The program, `start` and `procedures`, among all the objects. -/
structure World where
  start : InstructionAddress
  procedures : List SnippetId
  snippets : SnippetId → Option CodeSnippet
  instructions : InstructionId → Option Instruction
  next : Nat

namespace World

/-- No object but a program that starts at the address. -/
def empty (start : InstructionAddress) : World :=
  { start := start, procedures := [], snippets := fun _ => none, instructions := fun _ => none, next := 0 }

section Objects
variable (w : World)

def putSnippet (c : SnippetId) (s : Option CodeSnippet) : World :=
  { w with snippets := Function.update w.snippets c s }

def putInstruction (i : InstructionId) (ins : Option Instruction) : World :=
  { w with instructions := Function.update w.instructions i ins }

/-- A use of an object that does not exist is not defined. -/
def withSnippet (c : SnippetId) (f : CodeSnippet → Throwing World) : Throwing World :=
  match w.snippets c with
  | some s => f s
  | none => .undefined

def withInstruction (i : InstructionId) (f : Instruction → Throwing World) : Throwing World :=
  match w.instructions i with
  | some ins => f ins
  | none => .undefined

def setParent (i : InstructionId) (parent : Option SnippetId) : World :=
  w.putInstruction i ((w.instructions i).map fun ins => { ins with parent := parent })

def setInstructions (c : SnippetId) (instructions : List InstructionId) : World :=
  w.putSnippet c ((w.snippets c).map fun s => { s with instructions := instructions })

def deleteInstructions (l : List InstructionId) (w : World) : World :=
  l.foldl (fun w i => w.putInstruction i none) w

def newInstruction : World := { w.putInstruction w.next (some {}) with next := w.next + 1 }

def newCodeSnippet (isProcedure : Bool) (start : InstructionAddress) : World :=
  { w.putSnippet w.next (some { isProcedure := isProcedure, start := start }) with next := w.next + 1 }

end Objects

section Procedures
variable (w : World)

def lastProcedure : Option SnippetId := w.procedures.getLast?

/-- The procedures after the given one. -/
def following (c : SnippetId) : List SnippetId := (w.procedures.dropWhile (· != c)).tail

def nextProcedure (c : SnippetId) : Option SnippetId := (w.following c).head?

/-- One procedure by so much. -/
def shift (howMuch : InstructionAddress) (w : World) (p : SnippetId) : World :=
  w.putSnippet p ((w.snippets p).map fun s => { s with start := s.start + howMuch })

def moveProcedure (proc : SnippetId) (howMuch : InstructionAddress) : World :=
  (w.procedures.dropWhile (· != proc)).foldl (shift howMuch) w

/-- What `Procedure` does at the end of an edit: if registered to a program, tell to move the
procedures after this one. A plain code snippet does not. -/
def moveFollowing (c : SnippetId) (howMuch : InstructionAddress) (w : World) : Throwing World :=
  w.withSnippet c fun s =>
    if s.isProcedure && s.isInProgram && w.lastProcedure != some c then
      match w.nextProcedure c with
      | some q => .done (w.moveProcedure q howMuch)
      | none => .undefined
    else .done w

def addProcedure (p : SnippetId) : Throwing World :=
  w.withSnippet p fun s =>
    if !s.isProcedure then .undefined
    else if s.isInProgram then .threw w
    else
      let start := match w.lastProcedure.bind w.snippets with
        | some last => last.endAddress
        | none => w.start
      .done { w.putSnippet p (some { s with isInProgram := true, start := start }) with
        procedures := w.procedures ++ [p] }

/-- The labels of the procedure's addresses are removed one by one up to the last address, which
never ends when that is the largest there is. -/
def removeProcedure (p : SnippetId) : Throwing World :=
  w.withSnippet p fun s =>
    if !s.isInProgram then .threw w
    else if s.endAddress - 1 = BitVec.allOnes 32 then .undefined
    else
      (w.moveFollowing p (s.start - s.endAddress)).andThen fun w' =>
        .done { w'.putSnippet p (some { s with isInProgram := false }) with
          procedures := w'.procedures.erase p }

/-- `Program::setStartAddress`: procedures are moved up only. -/
def setStartAddress (start : InstructionAddress) : World :=
  let w' := { w with start := start }
  match w.procedures.head? with
  | some p =>
    match w.snippets p with
    | some first => if first.start < start then w'.moveProcedure p (start - first.start) else w'
    | none => w'
  | none => w'

end Procedures

end World

end Tce.POM
