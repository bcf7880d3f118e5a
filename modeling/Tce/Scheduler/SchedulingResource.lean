import Mathlib.Data.Finset.Basic
import Tce.Base.Arcs

/-!
# Scheduling resources

What the resources of a scheduler share: they are used in the instruction of a
cycle, and two moves may share a resource of a function unit when their guards
exclude each other, so that one of them at most is executed.
-/

namespace Tce

/-- `instructionIndex`: the cycle, modulo the initiation interval if there is one. -/
def instructionIndex (initiationInterval cycle : Nat) : Nat :=
  if initiationInterval ≠ 0 then cycle % initiationInterval else cycle

theorem instructionIndex_eq (initiationInterval cycle : Nat) :
    instructionIndex initiationInterval cycle = Arcs.position initiationInterval cycle := by
  rw [instructionIndex, Arcs.position, ite_not]

/-! ## Guards of moves -/

inductive Guard where
  | register (registerFile registerIndex : Nat) (isInverted : Bool)
  | port (port : Nat) (isInverted : Bool)
  | unconditional (isInverted : Bool)
  deriving DecidableEq, Repr

namespace Guard

def isInverted : Guard → Bool
  | register _ _ inverted => inverted
  | port _ inverted => inverted
  | unconditional inverted => inverted

def isOpposite : Guard → Guard → Bool
  | register registerFile registerIndex inverted, register registerFile' registerIndex' inverted' =>
    registerFile == registerFile' && registerIndex == registerIndex' && inverted != inverted'
  | port p inverted, port p' inverted' => p == p' && inverted != inverted'
  | _, _ => false

theorem isOpposite_irrefl (g : Guard) : g.isOpposite g = false := by
  cases g <;> simp [isOpposite]

theorem isOpposite_symm {g g' : Guard} (h : g.isOpposite g' = true) : g'.isOpposite g = true := by
  cases g <;> cases g' <;> simp only [isOpposite, Bool.and_eq_true, beq_iff_eq, bne_iff_ne, Bool.false_eq_true] at h ⊢
  · exact ⟨⟨h.1.1.symm, h.1.2.symm⟩, h.2.symm⟩
  · exact ⟨h.1.symm, h.2.symm⟩

end Guard

namespace ExecutionPipeline

/-- `INT_MAX` of a 32-bit int. -/
def intMax : Nat := 2147483647

/-- A node with its move. `guard` is none for an unconditional move; the other
fields are those of the destination of the move. -/
structure MoveNode where
  nodeID : Nat
  isMove : Bool
  guard : Option Guard
  isDestinationOperation : Bool
  isTriggering : Bool
  isOpcodeSetting : Bool
  operation : String
  hintOperation : String
  deriving DecidableEq, Repr

/-- A data dependence graph, by the nodes that define the guard of a node. -/
structure DataDependenceGraph where
  guardRawPredecessors : MoveNode → Finset Nat

def DataDependenceGraph.exclusingGuards (ddg : DataDependenceGraph) (mn1 mn2 : MoveNode) : Bool :=
  if !mn1.isMove || !mn2.isMove then false
  else
    match mn1.guard, mn2.guard with
    | some mg1, some mg2 =>
      if mg1.isInverted = mg2.isInverted then false
      else decide (ddg.guardRawPredecessors mn1 ≠ ∅ ∧ ddg.guardRawPredecessors mn1 = ddg.guardRawPredecessors mn2)
    | _, _ => false

/-- `scheduled` gives the cycles of the nodes that are scheduled. -/
def exclusiveMoves (ddg : Option DataDependenceGraph) (scheduled : MoveNode → Option Nat) (mn1 mn2 : MoveNode)
    (cycle : Nat) : Bool :=
  if !mn1.isMove || !mn2.isMove then false
  else
    match mn1.guard, mn2.guard with
    | some mg1, some mg2 =>
      match ddg with
      | some ddg => ddg.exclusingGuards mn1 mn2
      | none =>
        if !mg1.isOpposite mg2 then false
        else
          match scheduled mn1 with
          | none => false
          | some cycle1 =>
            match scheduled mn2 with
            | some cycle2 => cycle1 == cycle2
            | none => cycle1 == cycle || cycle == intMax
    | _, _ => false

/-- The guards of the moves exclude each other: by the graph they are one guard
and its inverse, and without a graph they read one register or port. -/
def MutuallyExclusive (ddg : Option DataDependenceGraph) (mn1 mn2 : MoveNode) : Prop :=
  ∃ mg1 mg2, mn1.guard = some mg1 ∧ mn2.guard = some mg2 ∧
    match ddg with
    | some ddg => mg1.isInverted ≠ mg2.isInverted ∧ ddg.guardRawPredecessors mn1 ≠ ∅ ∧
      ddg.guardRawPredecessors mn1 = ddg.guardRawPredecessors mn2
    | none => mg1.isOpposite mg2 = true

theorem mutuallyExclusive_of_exclusiveMoves {ddg : Option DataDependenceGraph} {scheduled : MoveNode → Option Nat}
    {mn1 mn2 : MoveNode} {cycle : Nat} (h : exclusiveMoves ddg scheduled mn1 mn2 cycle = true) :
    MutuallyExclusive ddg mn1 mn2 := by
  unfold exclusiveMoves at h
  split at h
  · cases h
  cases h1 : mn1.guard with
  | none => simp [h1] at h
  | some mg1 =>
    cases h2 : mn2.guard with
    | none => simp [h1, h2] at h
    | some mg2 =>
      refine ⟨mg1, mg2, h1, h2, ?_⟩
      cases ddg with
      | some ddg =>
        simp only [h1, h2, DataDependenceGraph.exclusingGuards] at h
        split_ifs at h with hinv
        exact ⟨hinv, of_decide_eq_true h⟩
      | none =>
        simp only [h1, h2] at h
        split_ifs at h with hopp
        simpa using hopp

theorem not_mutuallyExclusive_self {ddg : Option DataDependenceGraph} (mn : MoveNode) :
    ¬MutuallyExclusive ddg mn mn := by
  rintro ⟨mg1, mg2, h1, h2, h⟩
  obtain rfl : mg1 = mg2 := Option.some.inj (h1.symm.trans h2)
  cases ddg with
  | some ddg => exact h.1 rfl
  | none =>
    rw [Guard.isOpposite_irrefl] at h
    cases h

end ExecutionPipeline

end Tce
