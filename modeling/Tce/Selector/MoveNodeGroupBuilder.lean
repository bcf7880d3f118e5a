import Mathlib.Data.List.Basic

/-!
# Groups of the moves of a block

`MoveNodeGroupBuilder` takes the moves of a sequential block in their order, finds the
operations that they feed and read, and cuts the block into groups of moves that are
scheduled together.
-/

namespace Tce.Selector.MoveNodeGroupBuilder

/-- The end of a move. -/
inductive Terminal where
  | fuPort (functionUnit : String) (isTriggering isOpcodeSetting : Bool) (operation hintOperation : String)
  | specialRegisterPort (functionUnit : String)
  | other
  deriving DecidableEq, Repr

namespace Terminal

def isFUPort : Terminal → Bool
  | other => false
  | _ => true

def isSpecialRegisterPort : Terminal → Bool
  | specialRegisterPort _ => true
  | _ => false

def functionUnit : Terminal → String
  | fuPort functionUnit _ _ _ _ => functionUnit
  | specialRegisterPort functionUnit => functionUnit
  | other => ""

def isTriggering : Terminal → Bool
  | fuPort _ isTriggering _ _ _ => isTriggering
  | _ => false

/-- The operation that an operand is for. -/
def usedOperation : Terminal → String
  | fuPort _ _ isOpcodeSetting operation hintOperation => if isOpcodeSetting then operation else hintOperation
  | _ => ""

end Terminal

structure Move where
  source : Terminal
  destination : Terminal
  deriving DecidableEq, Repr

namespace Move

def sourceIsFU (move : Move) : Bool := move.source.isFUPort && !move.source.isSpecialRegisterPort

def destIsFU (move : Move) : Bool := move.destination.isFUPort && !move.destination.isSpecialRegisterPort

/-- A register copy. -/
def isCopy (move : Move) : Bool := !move.sourceIsFU && !move.destIsFU

end Move

/-- An operation is known by the number of the move that it was constructed for. -/
structure ProgramOperation where
  id : Nat
  operation : String
  inputMoves : List Nat
  outputMoves : List Nat
  deriving DecidableEq, Repr

structure MoveNode where
  sourceOperation : Option Nat
  destinationOperation : Option Nat
  deriving DecidableEq, Repr

structure MoveNodeGroup where
  programOperation : Option Nat
  nodes : List Nat
  deriving DecidableEq, Repr

/-- The local variables of `build`, with the nodes and the operations constructed so far.
The nodes of the groups are the numbers of their moves. -/
structure Building where
  moveNodes : List MoveNode
  programOperations : List ProgramOperation
  untriggered : String → Option Nat
  triggered : String → Option Nat
  mngs : List MoveNodeGroup
  mng : MoveNodeGroup

namespace Building

def initial : Building := ⟨[], [], fun _ => none, fun _ => none, [], ⟨none, []⟩⟩

/-- A node for the move. -/
def addMoveNode (s : Building) (node : MoveNode) : Building := { s with moveNodes := s.moveNodes ++ [node] }

def addNode (s : Building) (i : Nat) : Building := { s with mng := { s.mng with nodes := s.mng.nodes ++ [i] } }

def pushGroup (s : Building) : Building := { s with mngs := s.mngs ++ [s.mng], mng := ⟨none, []⟩ }

/-- The group, if it has nodes, is one of the list, and the next one is begun. -/
def pushNonempty (s : Building) : Building := if s.mng.nodes = [] then s else s.pushGroup

def setProgramOperation (s : Building) (po : Nat) : Building :=
  { s with mng := { s.mng with programOperation := some po } }

/-- A new operation that waits for its operands. -/
def construct (s : Building) (po : Nat) (dest : Terminal) : Building :=
  { s with
    programOperations := s.programOperations ++ [⟨po, dest.usedOperation, [], []⟩]
    untriggered := Function.update s.untriggered dest.functionUnit (some po) }

def addInputNode (s : Building) (po i : Nat) : Building :=
  { s with programOperations := s.programOperations.map fun p =>
      if p.id = po then { p with inputMoves := p.inputMoves ++ [i] } else p }

def addOutputNode (s : Building) (po i : Nat) : Building :=
  { s with programOperations := s.programOperations.map fun p =>
      if p.id = po then { p with outputMoves := p.outputMoves ++ [i] } else p }

def trigger (s : Building) (po : Nat) (dest : Terminal) : Building :=
  if dest.isTriggering then
    { s with
      untriggered := Function.update s.untriggered dest.functionUnit none
      triggered := Function.update s.triggered dest.functionUnit (some po) }
  else s

/-- A move from a register or an immediate to a function unit. -/
def operandMove (s : Building) (i : Nat) (dest : Terminal) : Building :=
  match s.untriggered dest.functionUnit with
  | some po => (((s.addInputNode po i).addMoveNode ⟨none, some po⟩).addNode i).trigger po dest
  | none =>
    let s := ((s.construct i dest).pushNonempty).setProgramOperation i
    (((s.addInputNode i i).addMoveNode ⟨none, some i⟩).addNode i).trigger i dest

/-- A move from a function unit. That there is a triggered operation is asserted. -/
def resultMove (s : Building) (i : Nat) (source : Terminal) : Option Building :=
  match s.triggered source.functionUnit with
  | some po => some (((s.addOutputNode po i).addMoveNode ⟨some po, none⟩).addNode i)
  | none => none

/-- A move from a function unit to a function unit. A new operation begins a new group. -/
def bypassMove (s : Building) (i : Nat) (source dest : Terminal) : Option Building :=
  match s.triggered source.functionUnit with
  | some sourcePO =>
    let s := s.addOutputNode sourcePO i
    match s.untriggered dest.functionUnit with
    | some po =>
      some (((s.addNode i).addInputNode po i).addMoveNode ⟨some sourcePO, some po⟩ |>.trigger po dest)
    | none =>
      let s := ((s.construct i dest).pushGroup).setProgramOperation i
      some (((s.addNode i).addInputNode i i).addMoveNode ⟨some sourcePO, some i⟩ |>.trigger i dest)
  | none => none

/-- A register copy is a group of its own. -/
def copyMove (s : Building) (i : Nat) : Building :=
  (({ s.pushNonempty with mng := ⟨none, []⟩ }.addMoveNode ⟨none, none⟩).addNode i).pushGroup

def buildMove (s : Building) (move : Move) : Option Building :=
  let i := s.moveNodes.length
  if !move.sourceIsFU && move.destIsFU then some (s.operandMove i move.destination)
  else if move.sourceIsFU && !move.destIsFU then s.resultMove i move.source
  else if move.sourceIsFU && move.destIsFU then s.bypassMove i move.source move.destination
  else some (s.copyMove i)

section Fields
variable (s : Building) (po i : Nat) (dest : Terminal) (node : MoveNode)

theorem untriggered_construct (functionUnit : String) : (s.construct po dest).untriggered functionUnit =
    if functionUnit = dest.functionUnit then some po else s.untriggered functionUnit := Function.update_apply ..

@[simp] theorem programOperations_trigger : (s.trigger po dest).programOperations = s.programOperations := by
  unfold trigger
  split <;> rfl

@[simp] theorem moveNodes_trigger : (s.trigger po dest).moveNodes = s.moveNodes := by
  unfold trigger
  split <;> rfl

@[simp] theorem mngs_trigger : (s.trigger po dest).mngs = s.mngs := by
  unfold trigger
  split <;> rfl

@[simp] theorem mng_trigger : (s.trigger po dest).mng = s.mng := by
  unfold trigger
  split <;> rfl

@[simp] theorem programOperations_pushNonempty : s.pushNonempty.programOperations = s.programOperations := by
  unfold pushNonempty
  split <;> rfl

@[simp] theorem moveNodes_pushNonempty : s.pushNonempty.moveNodes = s.moveNodes := by
  unfold pushNonempty
  split <;> rfl

@[simp] theorem untriggered_pushNonempty : s.pushNonempty.untriggered = s.untriggered := by
  unfold pushNonempty
  split <;> rfl

@[simp] theorem triggered_pushNonempty : s.pushNonempty.triggered = s.triggered := by
  unfold pushNonempty
  split <;> rfl

theorem mngs_pushNonempty : s.pushNonempty.mngs = if s.mng.nodes = [] then s.mngs else s.mngs ++ [s.mng] := by
  unfold pushNonempty
  split <;> rfl

@[simp] theorem nodes_pushNonempty : s.pushNonempty.mng.nodes = [] := by
  unfold pushNonempty
  split
  · next hempty => exact hempty
  · rfl

end Fields

/-- An operation that has operands but was not triggered. -/
def hasUntriggered (s : Building) (functionUnit : String) : Bool :=
  match s.untriggered functionUnit with
  | some po => s.programOperations.any fun p => p.id = po && !p.inputMoves.isEmpty
  | none => false

end Building

/-- The moves of the instructions of a block. -/
def movesOf (bb : List (List Move)) : List Move := bb.flatten

/-- The groups of the block, with the nodes and the operations. A failed assertion or an
operation that is left untriggered aborts. -/
def build (bb : List (List Move)) : Option Building := do
  let s ← (movesOf bb).foldlM Building.buildMove Building.initial
  let s := s.pushNonempty
  if (movesOf bb).any (fun move => move.destIsFU && s.hasUntriggered move.destination.functionUnit) then none
  else some s

end Tce.Selector.MoveNodeGroupBuilder
