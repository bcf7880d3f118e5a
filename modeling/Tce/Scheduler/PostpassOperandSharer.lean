import Tce.Scheduler.SchedulingResource

/-!
# Operand sharing after scheduling

`PostpassOperandSharer` takes out moves that write an operand again which its port
already has. Ports are those of function units; the return address port, that calls write
by themselves, is not one of them. The statistics are left out.
-/

namespace Tce.PostpassOperandSharer

/-- What a move reads or writes. -/
inductive Terminal (P V : Type) where
  | GPR (registerFile index : Nat)
  | immediateRegister (immediateUnit index : Nat)
  | immediate (value : V)
  | FUPort (port : P)
  deriving DecidableEq, Repr

/-- An unconditional move has no guard. -/
structure Move (P V : Type) where
  source : Terminal P V
  destination : Terminal P V
  guard : Option Guard
  deriving DecidableEq, Repr

/-- With whether the reference manager has a reference to it. -/
structure Instruction (P V : Type) where
  moves : List (Move P V)
  hasReference : Bool
  deriving DecidableEq, Repr

structure BasicBlock (P V : Type) where
  instructions : List (Instruction P V)
  skippedFirstInstructions : Nat
  deriving DecidableEq, Repr

/-- What the pass asks of the machine; the latency of a guard register is that of its file and
the global one together. -/
structure Target (P : Type) where
  isTriggering : P → Bool
  isOpcodeSetting : P → Bool
  guardLatency : Nat → Nat

section Pass
variable {P V : Type} [DecidableEq P] [DecidableEq V] (target : Target P)

def Move.isUnconditional (move : Move P V) : Bool := move.guard.isNone

/-- `none` where `IllegalMachine` is thrown, as guards on ports are not supported. -/
def Move.guardLatency (move : Move P V) : Option Nat :=
  match move.guard with
  | none => some 0
  | some (.register registerFile _ _) => some (target.guardLatency registerFile)
  | some _ => none

/-- The register that the guard reads, if it reads one. -/
def Move.guardRegister (move : Move P V) : Option (Nat × Nat) :=
  match move.guard with
  | some (.register registerFile index _) => some (registerFile, index)
  | _ => none

/-- Both guards exist and exclude each other. -/
def Move.hasOppositeGuard (prevMove move : Move P V) : Bool :=
  match prevMove.guard, move.guard with
  | some prevGuard, some guard => prevGuard.isOpposite guard
  | _, _ => false

def Move.hasEqualGuard (prevMove move : Move P V) : Bool :=
  match prevMove.guard, move.guard with
  | some prevGuard, some guard => prevGuard == guard
  | _, _ => false

/-- An instruction `guardLatency` before writes the register of the guard. -/
def writesGuard (moves : List (Move P V)) (move : Move P V) : Bool :=
  moves.any fun gMove =>
    match gMove.destination, move.guardRegister with
    | .GPR registerFile index, some register => register = (registerFile, index)
    | _, _ => false

/-- A move of an instruction overwrites the source. -/
def overwritesSource (moves : List (Move P V)) (move : Move P V) (guardOK : Bool) : Bool :=
  moves.any fun prevMove =>
    match prevMove.destination with
    | .GPR registerFile index =>
      move.source = .GPR registerFile index &&
        (!guardOK || prevMove.isUnconditional || move.isUnconditional || !prevMove.hasOppositeGuard move)
    | _ => false

/-- What the first move of an instruction that matters for the port decides. -/
def writesOperand (move : Move P V) (port : P) (guardOK : Bool) : List (Move P V) → Option Bool
  | [] => none
  | prevMove :: moves =>
    if prevMove.destination = .FUPort port then
      if move.source = prevMove.source then
        if !prevMove.isUnconditional &&
            (move.isUnconditional || (!guardOK || !prevMove.hasEqualGuard move)) then
          writesOperand move port guardOK moves
        else some (!(target.isTriggering port || target.isOpcodeSetting port))
      else some false
    else writesOperand move port guardOK moves

/-- The register of the guard is not written where the latency puts the write for this index. -/
def keepsGuard (block : BasicBlock P V) (move : Move P V) (glat i : Nat) : Bool :=
  if glat ≤ i + 1 then
    match block.instructions[i + 1 - glat]? with
    | some gIns => !writesGuard gIns.moves move
    | none => true
  else true

/-- The loop of `tryRemoveOperandWrite`, over the instructions before this index. -/
def search (block : BasicBlock P V) (move : Move P V) (port : P) (glat : Nat) : (index : Nat) → (guardOK : Bool) → Bool
  | 0, _ => false
  | i + 1, guardOK =>
    if i < block.skippedFirstInstructions then false
    else
      let guardOK := guardOK && keepsGuard block move glat i
      match block.instructions[i]? with
      | none => false
      | some prevIns =>
        if overwritesSource prevIns.moves move guardOK then false
        else
          match writesOperand target move port guardOK prevIns.moves with
          | some remove => remove
          | none => if prevIns.hasReference then false else search block move port glat i guardOK

/-- `guardOK` starts as false and is never set. -/
def tryRemoveOperandWrite (block : BasicBlock P V) (insIndex : Nat) (move : Move P V) : Option Bool :=
  match move.destination, move.source with
  | .FUPort _, .FUPort _ => some false
  | .FUPort _, .immediateRegister _ _ => some false
  | .FUPort port, _ => do
    let glat ← move.guardLatency target
    return search target block move port glat insIndex false
  | _, _ => some false

def BasicBlock.setMoves (block : BasicBlock P V) (insIndex : Nat) (moves : List (Move P V)) : BasicBlock P V :=
  { block with instructions := block.instructions.modify insIndex fun ins => { ins with moves := moves } }

/-- The inner loop: the moves of an instruction that were kept, and those still to be tried. -/
def shareMoves (block : BasicBlock P V) (insIndex : Nat) (kept : List (Move P V)) :
    List (Move P V) → Option (List (Move P V))
  | [] => some kept
  | move :: moves => do
    if ← tryRemoveOperandWrite target (block.setMoves insIndex (kept ++ move :: moves)) insIndex move then
      shareMoves block insIndex kept moves
    else shareMoves block insIndex (kept ++ [move]) moves

/-- The outer loop, from the instruction before this index on; `none` when an exception is thrown. -/
def handleInstructions (block : BasicBlock P V) : (index : Nat) → Option (BasicBlock P V)
  | 0 => some block
  | i + 1 =>
    match block.instructions[i]? with
    | none => handleInstructions block i
    | some ins => do
      let moves ← shareMoves target block i [] ins.moves
      handleInstructions (block.setMoves i moves) i

def handleBasicBlock (block : BasicBlock P V) : Option (BasicBlock P V) :=
  handleInstructions target block block.instructions.length

end Pass

end Tce.PostpassOperandSharer
