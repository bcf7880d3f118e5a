import Tce.POM.Program

/-!
# Editing code snippets and procedures

`Procedure` overrides `add`, `insertAfter`, `insertBefore`, `remove` and `clear` of
`CodeSnippet` to move the procedures that follow; `addFront` it does not implement, and
`removeLastInstruction` it inherits. The edits that take a whole snippet are loops over these.
-/

namespace Tce.POM.World

section Queries
variable (w : World)

/-- `Instruction::address`, with the world after the position is cached; none if it throws. -/
def address (i : InstructionId) : Option (InstructionAddress × World) :=
  match w.instructions i with
  | none => none
  | some ins =>
    match ins.parent with
    | none => none
    | some c =>
      match w.snippets c with
      | none => none
      | some s =>
        if ins.positionInProcedure ≠ -1 ∧ ins.positionInProcedure < BitVec.ofNat 32 s.instructions.length ∧
            s.instructions[ins.positionInProcedure.toNat]? = some i then
          some (s.start + ins.positionInProcedure, w)
        else
          match s.instructions.idxOf? i with
          | some k =>
            some (s.start + BitVec.ofNat 32 k,
              w.putInstruction i (some { ins with positionInProcedure := BitVec.ofNat 32 k }))
          | none => none

/-- `CodeSnippet::nextInstruction`: `some none` is the null instruction. -/
def nextInSnippet (c : SnippetId) (s : CodeSnippet) (i : InstructionId) : Option (Option InstructionId × World) :=
  if (w.instructions i).bind (·.parent) = some c then
    (w.address i).map fun r => (s.instructions[(r.1 - s.start + 1).toNat]?, r.2)
  else none

/-- The procedure whose addresses the address is one of. -/
def containing (address : InstructionAddress) (p : SnippetId) : Bool :=
  (w.snippets p).any fun s => decide (s.start ≤ address ∧ address < s.endAddress)

def instructionAt (address : InstructionAddress) : Option InstructionId :=
  ((w.procedures.find? (w.containing address)).bind w.snippets).bind (·.instructionAt address)

def instructionsOf (p : SnippetId) : List InstructionId := ((w.snippets p).map (·.instructions)).getD []

def instructionVector : List InstructionId := w.procedures.flatMap w.instructionsOf

/-- The first instruction of the first procedure that has any. -/
def firstOfNonEmpty (procedures : List SnippetId) : Option InstructionId :=
  ((procedures.find? fun p => (w.snippets p).any (!·.instructions.isEmpty)).bind w.snippets).bind
    fun s => s.instructionAt s.start

/-- `Program::nextInstruction`: none if it throws, `some none` for the null instruction. -/
def nextInstruction (i : InstructionId) : Option (Option InstructionId) :=
  if ((w.instructions i).bind (·.parent)).any fun c => (w.snippets c).any (·.isInProgram) then
    match w.address i with
    | none => none
    | some (insAddress, w') =>
      match w'.procedures.dropWhile (!w'.containing insAddress ·) with
      | [] => some none
      | p :: rest =>
        match w'.snippets p with
        | none => none
        | some s =>
          match w'.nextInSnippet p s i with
          | none => none
          | some (some next, _) => some (some next)
          | some (none, w'') => some (w''.firstOfNonEmpty rest)
  else none

end Queries

section SingleInstruction
variable (c : SnippetId)

/-- The instruction is told its parent and the list of the snippet is replaced. -/
def place (i : InstructionId) (instructions : List InstructionId) (w : World) : World :=
  (w.setParent i (some c)).setInstructions c instructions

/-- An edit that adds an instruction, which may be in no procedure yet. -/
def ifFree (i : InstructionId) (f : CodeSnippet → Throwing World) (w : World) : Throwing World :=
  w.withSnippet c fun s => w.withInstruction i fun ins =>
    if ins.parent.isSome then .threw w else f s

def add (i : InstructionId) (w : World) : Throwing World :=
  w.ifFree c i fun s => (w.place c i (s.instructions ++ [i])).moveFollowing c 1

/-- Not implemented for procedures. -/
def addFront (i : InstructionId) (w : World) : Throwing World :=
  w.withSnippet c fun s =>
    if s.isProcedure then .undefined
    else w.ifFree c i fun s => .done (w.place c i (i :: s.instructions))

/-- The list with the element after the first `pos`. -/
def insertedAfter (pos i : InstructionId) (l : List InstructionId) : List InstructionId :=
  l.insertIdx (l.idxOf pos + 1) i

def insertedBefore (pos i : InstructionId) (l : List InstructionId) : List InstructionId :=
  l.insertIdx (l.idxOf pos) i

/-- `CodeSnippet::insertAfter` looks for the instruction that follows `pos`, `Procedure::insertAfter`
for `pos`; both add at the end if `pos` is the last. -/
def insertAfter (pos i : InstructionId) (w : World) : Throwing World :=
  w.ifFree c i fun s =>
    if s.isProcedure then
      if pos ∈ s.instructions then
        if s.instructions.idxOf pos + 1 < s.instructions.length then
          (w.place c i (insertedAfter pos i s.instructions)).moveFollowing c 1
        else w.add c i
      else .threw w
    else
      match w.nextInSnippet c s pos with
      | none => .threw w
      | some (none, w') => w'.add c i
      | some (some next, w') =>
        if next ∈ s.instructions then .done (w'.place c i (insertedBefore next i s.instructions))
        else .undefined

def insertBefore (pos i : InstructionId) (w : World) : Throwing World :=
  w.ifFree c i fun s =>
    if pos ∈ s.instructions then (w.place c i (insertedBefore pos i s.instructions)).moveFollowing c 1
    else .undefined

/-- A procedure looks at its first instruction, whose absence throws what `remove` does not declare,
and when it becomes empty at the labels of its program: without a program that throws, after the
instruction is gone from the list. -/
def remove (i : InstructionId) (w : World) : Throwing World :=
  w.withSnippet c fun s => w.withInstruction i fun ins =>
    if ins.parent ≠ some c then .threw w
    else if s.isProcedure && s.instructions.isEmpty then .undefined
    else if i ∈ s.instructions then
      let rest := s.instructions.erase i
      let w' := w.setInstructions c rest
      if s.isProcedure && rest.isEmpty && !s.isInProgram then .threw w'
      else (w'.setParent i none).moveFollowing c (-1)
    else .done w

def clear (w : World) : Throwing World :=
  w.withSnippet c fun s =>
    ((w.setInstructions c []).deleteInstructions s.instructions).moveFollowing c (-BitVec.ofNat 32 s.instructions.length)

/-- Inherited by `Procedure`. -/
def removeLastInstruction (w : World) : Throwing World :=
  w.withSnippet c fun s => .done (w.setInstructions c s.instructions.dropLast)

/-- What `remove` throws, `deleteInstructionAt` does not declare. -/
def deleteInstructionAt (address : InstructionAddress) (w : World) : Throwing World :=
  w.withSnippet c fun s =>
    match s.instructionAt address with
    | none => .threw w
    | some i =>
      match w.remove c i with
      | .done w' => .done (w'.putInstruction i none)
      | _ => .undefined

/-- `CodeSnippet::setStartAddress`, a plain assignment. -/
def setSnippetStart (start : InstructionAddress) (w : World) : Throwing World :=
  w.withSnippet c fun s => .done (w.putSnippet c (some { s with start := start }))

/-- `Program::addInstruction`. -/
def addInstruction (i : InstructionId) (w : World) : Throwing World :=
  match w.lastProcedure with
  | none => .threw w
  | some p => w.add p i

end SingleInstruction

section WholeSnippet
variable (c cs : SnippetId)

/-- A copy of an instruction, added in some way. -/
def copyThen (insert : InstructionId → World → Throwing World) (k : Nat) (w : World) : Throwing World :=
  w.withSnippet cs fun s =>
    if k < s.instructions.length then insert w.next w.newInstruction else .undefined

/-- An instruction of the other snippet, removed there and added in some way. -/
def moveThen (insert : InstructionId → World → Throwing World) (k : Nat) (w : World) : Throwing World :=
  w.withSnippet cs fun s =>
    match s.instructions[k]? with
    | some i => (w.remove cs i).andThen (insert i)
    | none => .undefined

/-- What is left of the snippet is deleted with it. A program would keep its deleted procedure. -/
def deleteSnippet (w : World) : Throwing World :=
  w.withSnippet cs fun s =>
    if s.isInProgram then .undefined
    else .done ((w.putSnippet cs none).deleteInstructions s.instructions)

/-- The loops whose bound is read again each time do not end if the snippet is the one that grows. -/
def copyEach (insert : InstructionId → World → Throwing World) (w : World) : Throwing World :=
  w.withSnippet cs fun s =>
    if cs = c ∧ s.instructions ≠ [] then .undefined
    else Throwing.forEach (copyThen cs insert) (List.range s.instructions.length) w

def copyEachFromLast (insert : InstructionId → World → Throwing World) (w : World) : Throwing World :=
  w.withSnippet cs fun s =>
    Throwing.forEach (copyThen cs insert) (List.range s.instructions.length).reverse w

/-- The first instruction, as often as there are instructions. -/
def moveEach (insert : InstructionId → World → Throwing World) (w : World) : Throwing World :=
  w.withSnippet cs fun s =>
    (Throwing.forEach (moveThen cs insert) (List.replicate s.instructions.length 0) w).andThen (deleteSnippet cs)

def moveEachFromLast (insert : InstructionId → World → Throwing World) (w : World) : Throwing World :=
  w.withSnippet cs fun s =>
    (Throwing.forEach (moveThen cs insert) (List.range s.instructions.length).reverse w).andThen (deleteSnippet cs)

def appendCopy : World → Throwing World := copyEach c cs (add c)

def append : World → Throwing World := moveEach cs (add c)

def prependCopy : World → Throwing World := copyEachFromLast cs (addFront c)

def prepend : World → Throwing World := moveEachFromLast cs (addFront c)

def insertCopyBefore (pos : InstructionId) : World → Throwing World := copyEach c cs (insertBefore c pos)

def insertSnippetBefore (pos : InstructionId) : World → Throwing World := moveEach cs (insertBefore c pos)

def insertCopyAfter (pos : InstructionId) : World → Throwing World := copyEachFromLast cs (insertAfter c pos)

def insertSnippetAfter (pos : InstructionId) : World → Throwing World := moveEachFromLast cs (insertAfter c pos)

end WholeSnippet

/-- What a client can do to the program and to the objects it holds. `queryAddress` is here since
it fills the cache. -/
inductive Edit where
  | newInstruction
  | newCodeSnippet (isProcedure : Bool) (start : InstructionAddress)
  | addProcedure (p : SnippetId)
  | removeProcedure (p : SnippetId)
  | setStartAddress (start : InstructionAddress)
  | addInstruction (i : InstructionId)
  | add (c : SnippetId) (i : InstructionId)
  | addFront (c : SnippetId) (i : InstructionId)
  | insertAfter (c : SnippetId) (pos i : InstructionId)
  | insertBefore (c : SnippetId) (pos i : InstructionId)
  | remove (c : SnippetId) (i : InstructionId)
  | clear (c : SnippetId)
  | removeLastInstruction (c : SnippetId)
  | deleteInstructionAt (c : SnippetId) (address : InstructionAddress)
  | setSnippetStart (c : SnippetId) (start : InstructionAddress)
  | appendCopy (c cs : SnippetId)
  | append (c cs : SnippetId)
  | prependCopy (c cs : SnippetId)
  | prepend (c cs : SnippetId)
  | insertCopyBefore (c cs : SnippetId) (pos : InstructionId)
  | insertSnippetBefore (c cs : SnippetId) (pos : InstructionId)
  | insertCopyAfter (c cs : SnippetId) (pos : InstructionId)
  | insertSnippetAfter (c cs : SnippetId) (pos : InstructionId)
  | queryAddress (i : InstructionId)

def edit (w : World) : Edit → Throwing World
  | .newInstruction => .done w.newInstruction
  | .newCodeSnippet isProcedure start => .done (w.newCodeSnippet isProcedure start)
  | .addProcedure p => w.addProcedure p
  | .removeProcedure p => w.removeProcedure p
  | .setStartAddress start => .done (w.setStartAddress start)
  | .addInstruction i => w.addInstruction i
  | .add c i => w.add c i
  | .addFront c i => w.addFront c i
  | .insertAfter c pos i => w.insertAfter c pos i
  | .insertBefore c pos i => w.insertBefore c pos i
  | .remove c i => w.remove c i
  | .clear c => w.clear c
  | .removeLastInstruction c => w.removeLastInstruction c
  | .deleteInstructionAt c address => w.deleteInstructionAt c address
  | .setSnippetStart c start => w.setSnippetStart c start
  | .appendCopy c cs => appendCopy c cs w
  | .append c cs => append c cs w
  | .prependCopy c cs => prependCopy c cs w
  | .prepend c cs => prepend c cs w
  | .insertCopyBefore c cs pos => insertCopyBefore c cs pos w
  | .insertSnippetBefore c cs pos => insertSnippetBefore c cs pos w
  | .insertCopyAfter c cs pos => insertCopyAfter c cs pos w
  | .insertSnippetAfter c cs pos => insertSnippetAfter c cs pos w
  | .queryAddress i => ((w.address i).map fun r => Throwing.done r.2).getD (.threw w)

/-- The world after a sequence of edits, each of which returned or threw. -/
def run : List Edit → World → Option World
  | [], w => some w
  | e :: edits, w => (w.edit e).state?.bind (run edits)

end Tce.POM.World
