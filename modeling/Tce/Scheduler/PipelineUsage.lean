import Tce.Scheduler.ReservationRuns

/-!
# Use of a pipeline resource

What an `ExecutionPipelineResource` records of operand writes and result reads, beside the
reservations of the pipeline, and `isInUse`, which asks for all three.
-/

namespace Tce.ExecutionPipeline
open ResourceReservationTable

/-- The ports of the unit in the order of the maps, and those that the moves write and read. -/
structure UnitPorts where
  ports : List Nat
  operandPort : MoveNode → Nat
  resultPort : MoveNode → Nat
  sourceOperation : MoveNode → Nat
  operandPort_mem : ∀ node, operandPort node ∈ ports
  resultPort_mem : ∀ node, resultPort node ∈ ports

/-- Reads of the result of one program operation. -/
structure ResultHelper where
  realCycle : Nat
  po : Option Nat
  count : Nat

namespace ResultHelper

def free (realCycle : Nat) : ResultHelper := ⟨realCycle, none, 0⟩

end ResultHelper

structure ResultHelperPair where
  first : ResultHelper
  second : ResultHelper

namespace ResultHelperPair

def free (realCycle : Nat) : ResultHelperPair := ⟨.free realCycle, .free realCycle⟩

/-- One more read; none is an assertion that fails. -/
def addRead (cycle po : Nat) (rhp : ResultHelperPair) : Option ResultHelperPair :=
  if rhp.first.po = none then some { rhp with first := ⟨cycle, some po, 1⟩ }
  else if rhp.first.po = some po then some { rhp with first := { rhp.first with count := rhp.first.count + 1 } }
  else if rhp.second.po = none then some { rhp with second := ⟨cycle, some po, 1⟩ }
  else if rhp.second.po = some po then some { rhp with second := { rhp.second with count := rhp.second.count + 1 } }
  else none

/-- One read less; none is a pair that is erased. -/
def removeRead (modCycle po : Nat) (rhp : ResultHelperPair) : Option ResultHelperPair :=
  if rhp.first.po = some po then
    let first := { rhp.first with count := rhp.first.count - 1 }
    if first.count = 0 then
      if rhp.second.count = 0 then none else some ⟨rhp.second, .free modCycle⟩
    else some { rhp with first := first }
  else if rhp.second.po = some po then
    let second := { rhp.second with count := rhp.second.count - 1 }
    some { rhp with second := if second.count = 0 then .free modCycle else second }
  else some rhp

end ResultHelperPair

/-- The nodes that write an operand port in a cycle. -/
structure OperandWrites where
  first : Option MoveNode
  second : Option MoveNode

namespace OperandWrites

def free : OperandWrites := ⟨none, none⟩

/-- None is an exception. -/
def add (ddg : Option DataDependenceGraph) (scheduled : MoveNode → Option Nat) (cycle : Nat) (node : MoveNode)
    (mnpp : OperandWrites) : Option OperandWrites :=
  match mnpp.first with
  | none => some { mnpp with first := some node }
  | some first =>
    if mnpp.second ≠ none ∨ exclusiveMoves ddg scheduled first node cycle = false then none
    else some { mnpp with second := some node }

/-- None is an assertion that fails. -/
def remove (node : MoveNode) (mnpp : OperandWrites) : Option OperandWrites :=
  if mnpp.first = none then none
  else if mnpp.second = some node then some { mnpp with second := none }
  else if mnpp.first = some node then some ⟨mnpp.second, none⟩
  else none

end OperandWrites

/-- The unit with what is recorded of the operands and the results. -/
structure PipelineUsage where
  ep : ExecutionPipelineResource
  operandsWriten : Nat → SparseVector OperandWrites
  resultRead : Nat → Option (SparseVector ResultHelperPair)
  storedResultCycles : MoveNode → Option Nat

/-- How `isInUse` ends; the last entry of an empty map is not defined. -/
inductive Answer where
  | returned (inUse : Bool)
  | thrown (message : String)
  | undefined

namespace PipelineUsage
variable (unit : UnitPorts) (u : PipelineUsage)

def create (resources : ResourceTable) (initiationInterval maxCycle : Nat) (ddg : Option DataDependenceGraph) :
    PipelineUsage :=
  ⟨.create resources initiationInterval maxCycle ddg, fun _ => .empty, fun _ => none, fun _ => none⟩

def index (cycle : Nat) : Nat := u.ep.index cycle

/-- Whether one of the ports has a result read in the cycle, and one in a later cycle; none if a port has no
reads any more. -/
def readBeforeLast (modCycle : Nat) : List Nat → Option Bool
  | [] => some false
  | port :: ports =>
    match u.resultRead port with
    | none => readBeforeLast modCycle ports
    | some resultRead =>
      if resultRead.size = 0 then none
      else if modCycle < resultRead.size - 1 ∧ (((resultRead.find modCycle).getD (.free 0)).first.po).isSome = true then
        some true
      else readBeforeLast modCycle ports

def isInUse (cycle : Nat) : Answer :=
  let modCycle := u.index cycle
  if unit.ports.any fun port => ((u.operandsWriten port).find modCycle).isSome then .returned true
  else
    match u.readBeforeLast modCycle unit.ports with
    | none => .undefined
    | some true => .returned true
    | some false =>
      if u.ep.size u.ep.fuExecutionPipeline ≤ modCycle then .returned false
      else if u.ep.resources.numberOfResources ≠ (u.ep.fuExecutionPipeline.row modCycle).length then
        .thrown "Execution pipeline is missing resources!"
      else .returned ((List.range u.ep.resources.numberOfResources).any fun j =>
        (u.ep.fuExecutionPipeline.slot modCycle j).first.isSome)

/-! ## Calls -/

/-- `resultReady` is the earliest cycle to read the result of the node. -/
def assignSource (cycle : Nat) (node : MoveNode) (resultReady : Option Nat) : Option PipelineUsage := do
  let modCycle := u.index cycle
  let port := unit.resultPort node
  let resultRead := (u.resultRead port).getD .empty
  let rhp := if resultRead.size ≤ modCycle then .free modCycle else (resultRead.find modCycle).getD (.free 0)
  let rhp ← rhp.addRead cycle (unit.sourceOperation node)
  return { u with
    ep := { u.ep with assignedSourceNodes := u.ep.assignedSourceNodes ++ [(cycle, node)] }
    resultRead := Function.update u.resultRead port (some (resultRead.insert modCycle rhp))
    storedResultCycles := Function.update u.storedResultCycles node
      (some ((u.storedResultCycles node).getD (resultReady.getD cycle))) }

/-- One read less; a pair without reads is erased. -/
def removeResultRead (modCycle po : Nat) (resultRead : SparseVector ResultHelperPair) : SparseVector ResultHelperPair :=
  match ((resultRead.find modCycle).getD (.free 0)).removeRead modCycle po with
  | some rhp => resultRead.insert modCycle rhp
  | none => resultRead.erase modCycle

/-- The results that are written are not recorded here. -/
def unassignSource (cycle : Nat) (node : MoveNode) : Option PipelineUsage := do
  let modCycle := u.index cycle
  let port := unit.resultPort node
  let resultRead := (u.resultRead port).getD .empty
  let touched := Function.update u.resultRead port (some resultRead)
  if node ∉ u.ep.assignedSourceNodes.map Prod.snd then return { u with resultRead := touched }
  else
    let ep := { u.ep with assignedSourceNodes := u.ep.assignedSourceNodes.filter fun entry => entry.2 ≠ node }
    if u.storedResultCycles node = none then return { u with ep := ep, resultRead := touched }
    else if resultRead.size ≤ modCycle then none
    else
      return { u with
        ep := ep
        resultRead := Function.update u.resultRead port
          (some (removeResultRead modCycle (unit.sourceOperation node) resultRead))
        storedResultCycles := Function.update u.storedResultCycles node none }

/-- The reservation is that of the pipeline; the operands that are used are not recorded here. -/
def assignDestination (scheduled : MoveNode → Option Nat) (cycle : Nat) (node : MoveNode) : Option PipelineUsage := do
  if !node.isDestinationOperation then return u
  else
    let modCycle := u.index cycle
    let port := unit.operandPort node
    let ep ← (u.ep.assignDestination cycle node).toOption
    let mnpp ← (((u.operandsWriten port).find modCycle).getD .free).add u.ep.ddg scheduled cycle node
    return { u with
      ep := ep
      operandsWriten := Function.update u.operandsWriten port ((u.operandsWriten port).insert modCycle mnpp) }

/-- The entry of the port is kept, also without a node. -/
def unassignDestination (cycle : Nat) (node : MoveNode) : Option PipelineUsage := do
  if !node.isDestinationOperation then return u
  else if node ∉ u.ep.assignedDestinationNodes.map Prod.snd then return u
  else
    let modCycle := u.index cycle
    let port := unit.operandPort node
    let mnpp ← (((u.operandsWriten port).find modCycle).getD .free).remove node
    let ep ← (u.ep.unassignDestination cycle node).toOption
    return { u with
      ep := ep
      operandsWriten := Function.update u.operandsWriten port ((u.operandsWriten port).insert modCycle mnpp) }

/-- Calls that return. A node is assigned once at a time, and unassigned in its cycle. -/
inductive Step (u : PipelineUsage) : PipelineUsage → Prop
  | query (scheduled : MoveNode → Option Nat) (cycle : Nat) (node : MoveNode) (b : Bool)
    (ep : ExecutionPipelineResource) : u.ep.resourcesAllowTrigger scheduled cycle node = .ok (b, ep) →
    Step u { u with ep := ep }
  | assignSource (cycle : Nat) (node : MoveNode) (resultReady : Option Nat) (u' : PipelineUsage) :
    node ∉ u.ep.assignedSourceNodes.map Prod.snd → u.assignSource unit cycle node resultReady = some u' → Step u u'
  | unassignSource (cycle : Nat) (node : MoveNode) (u' : PipelineUsage) :
    (cycle, node) ∈ u.ep.assignedSourceNodes ∨ node ∉ u.ep.assignedSourceNodes.map Prod.snd →
    u.unassignSource unit cycle node = some u' → Step u u'
  | assignDestination (scheduled : MoveNode → Option Nat) (cycle : Nat) (node : MoveNode) (u' : PipelineUsage) :
    node ∉ u.ep.assignedDestinationNodes.map Prod.snd → u.assignDestination unit scheduled cycle node = some u' →
    Step u u'
  | unassignDestination (cycle : Nat) (node : MoveNode) (u' : PipelineUsage) :
    (cycle, node) ∈ u.ep.assignedDestinationNodes ∨ node ∉ u.ep.assignedDestinationNodes.map Prod.snd →
    u.unassignDestination unit cycle node = some u' → Step u u'
  | setDDG (ddg : Option DataDependenceGraph) : Step u { u with ep := { u.ep with ddg := ddg } }
  | setMaxCycle (maxCycle : Nat) : Step u { u with ep := { u.ep with maxCycle := maxCycle } }
  | clear : Step u (create u.ep.resources u.ep.initiationInterval u.ep.maxCycle none)

inductive Reached (resources : ResourceTable) (initiationInterval maxCycle : Nat) (ddg : Option DataDependenceGraph) :
    PipelineUsage → Prop
  | start : Reached resources initiationInterval maxCycle ddg (create resources initiationInterval maxCycle ddg)
  | next {u u' : PipelineUsage} : Reached resources initiationInterval maxCycle ddg u → Step unit u u' →
    Reached resources initiationInterval maxCycle ddg u'

end PipelineUsage

/-! ## Pairs -/

namespace ResultHelperPair
variable {rhp rhp' : ResultHelperPair} {po : Nat}

/-- The reads of an operation in a pair. -/
def reads (rhp : ResultHelperPair) (po : Nat) : Nat :=
  if rhp.first.po = some po then rhp.first.count else if rhp.second.po = some po then rhp.second.count else 0

@[simp] theorem reads_free (realCycle : Nat) : (free realCycle).reads po = 0 := rfl

/-- A pair of the map: the second operation is another one, and comes after the first. -/
def Filled (rhp : ResultHelperPair) : Prop :=
  ∃ a, rhp.first.po = some a ∧ 0 < rhp.first.count ∧
    ((rhp.second.po = none ∧ rhp.second.count = 0) ∨ ∃ b, rhp.second.po = some b ∧ a ≠ b ∧ 0 < rhp.second.count)

theorem Filled.isSome (h : rhp.Filled) : rhp.first.po.isSome = true := by
  obtain ⟨a, ha, -⟩ := h
  rw [ha]
  rfl

theorem Filled.reads_pos (h : rhp.Filled) : ∃ po, 0 < rhp.reads po := by
  obtain ⟨a, ha, hpos, -⟩ := h
  exact ⟨a, by rw [reads, if_pos ha]; exact hpos⟩

theorem addRead_spec {cycle : Nat} (h : rhp.Filled ∨ ∃ realCycle, rhp = free realCycle)
    (hadd : rhp.addRead cycle po = some rhp') :
    rhp'.Filled ∧ ∀ p, rhp'.reads p = rhp.reads p + if po = p then 1 else 0 := by
  obtain h | ⟨realCycle, rfl⟩ := h
  · obtain ⟨⟨fc, fp, fn⟩, ⟨sc, sp, sn⟩⟩ := rhp
    obtain ⟨a, ha, hpos, hsecond⟩ := h
    obtain rfl : fp = some a := ha
    unfold addRead at hadd
    rw [if_neg (Option.some_ne_none a)] at hadd
    by_cases hpo : a = po
    · subst hpo
      rw [if_pos rfl] at hadd
      cases hadd
      refine ⟨⟨a, rfl, Nat.succ_pos _, hsecond⟩, fun p => ?_⟩
      by_cases hp : a = p <;> simp [reads, hp]
    · rw [if_neg fun heq => hpo (Option.some.inj heq)] at hadd
      obtain ⟨hnone, hzero⟩ | ⟨b, hb, hab, hbpos⟩ := hsecond
      · rw [if_pos hnone] at hadd
        cases hadd
        refine ⟨⟨a, rfl, hpos, .inr ⟨po, rfl, hpo, Nat.one_pos⟩⟩, fun p => ?_⟩
        obtain rfl : sp = none := hnone
        by_cases hp : a = p
        · subst hp
          simp [reads, Ne.symm hpo]
        · by_cases hpp : po = p <;> simp [reads, hp, hpp]
      · obtain rfl : sp = some b := hb
        rw [if_neg (Option.some_ne_none b)] at hadd
        split at hadd
        · next hsame =>
          obtain rfl := Option.some.inj hsame
          cases hadd
          refine ⟨⟨a, rfl, hpos, .inr ⟨b, rfl, hab, Nat.succ_pos _⟩⟩, fun p => ?_⟩
          by_cases hp : a = p
          · subst hp
            simp [reads, Ne.symm hab]
          · by_cases hpp : b = p <;> simp [reads, hp, hpp]
        · cases hadd
  · cases hadd
    refine ⟨⟨po, rfl, Nat.one_pos, .inl ⟨rfl, rfl⟩⟩, fun p => ?_⟩
    by_cases hp : po = p <;> simp [reads, free, ResultHelper.free, hp]

/-- A read less: the pair stays filled, or was the read and is erased. -/
theorem removeRead_spec (modCycle : Nat) (h : rhp.Filled) (hpos : 0 < rhp.reads po) :
    (∀ rhp', rhp.removeRead modCycle po = some rhp' →
      rhp'.Filled ∧ ∀ p, rhp'.reads p + (if po = p then 1 else 0) = rhp.reads p) ∧
    (rhp.removeRead modCycle po = none → ∀ p, rhp.reads p = if po = p then 1 else 0) := by
  obtain ⟨⟨fc, fp, fn⟩, ⟨sc, sp, sn⟩⟩ := rhp
  obtain ⟨a, ha, hfn, hsecond⟩ := h
  obtain rfl : fp = some a := ha
  unfold removeRead
  by_cases hpo : a = po
  · subst hpo
    simp only [if_true]
    dsimp only at hfn
    by_cases hone : fn - 1 = 0
    · obtain rfl : fn = 1 := by omega
      obtain ⟨hnone, hzero⟩ | ⟨b, hb, hab, hbpos⟩ := hsecond
      · obtain rfl : sp = none := hnone
        obtain rfl : sn = 0 := hzero
        refine ⟨nofun, fun _ p => ?_⟩
        by_cases hp : a = p <;> simp [reads, hp]
      · obtain rfl : sp = some b := hb
        dsimp only at hbpos
        rw [if_pos hone, if_neg (by omega)]
        refine ⟨fun rhp' h' => ?_, nofun⟩
        cases h'
        refine ⟨⟨b, rfl, hbpos, .inl ⟨rfl, rfl⟩⟩, fun p => ?_⟩
        by_cases hp : a = p
        · subst hp
          simp [reads, ResultHelper.free, Ne.symm hab]
        · by_cases hpp : b = p <;> simp [reads, ResultHelper.free, hp, hpp]
    · rw [if_neg hone]
      refine ⟨fun rhp' h' => ?_, nofun⟩
      cases h'
      refine ⟨⟨a, rfl, Nat.pos_of_ne_zero hone, hsecond⟩, fun p => ?_⟩
      by_cases hp : a = p
      · subst hp
        simp only [reads, if_true]
        omega
      · simp [reads, hp]
  · rw [if_neg fun heq => hpo (Option.some.inj heq)]
    obtain ⟨hnone, hzero⟩ | ⟨b, hb, hab, hbpos⟩ := hsecond
    · obtain rfl : sp = none := hnone
      simp [reads, hpo] at hpos
    · obtain rfl : sp = some b := hb
      have hbp : b = po := by
        by_contra hne
        simp [reads, hpo, hne] at hpos
      subst hbp
      rw [if_pos rfl]
      refine ⟨fun rhp' h' => ?_, nofun⟩
      cases h'
      dsimp only at hbpos
      by_cases hone : sn - 1 = 0
      · obtain rfl : sn = 1 := by omega
        refine ⟨⟨a, rfl, hfn, .inl ⟨rfl, rfl⟩⟩, fun p => ?_⟩
        by_cases hp : a = p
        · subst hp
          simp [reads, Ne.symm hab]
        · by_cases hpp : b = p <;> simp [reads, ResultHelper.free, hp, hpp]
      · refine ⟨⟨a, rfl, hfn, .inr ⟨b, ?_, hab, ?_⟩⟩, fun p => ?_⟩
        · rw [if_neg hone]
        · rw [if_neg hone]
          exact Nat.pos_of_ne_zero hone
        · rw [if_neg hone]
          by_cases hp : a = p
          · subst hp
            simp [reads, Ne.symm hab]
          · by_cases hpp : b = p
            · subst hpp
              simp only [reads, if_neg (fun heq => hp (Option.some.inj heq)), if_true]
              omega
            · simp [reads, hp, hpp]

end ResultHelperPair

namespace OperandWrites
variable {mnpp mnpp' : OperandWrites} {node : MoveNode}

/-- The nodes of an entry. -/
def Has (mnpp : OperandWrites) (node : MoveNode) : Prop := mnpp.first = some node ∨ mnpp.second = some node

/-- The second node is another one, and comes after the first. -/
structure Packed (mnpp : OperandWrites) : Prop where
  first_of_second : mnpp.second ≠ none → mnpp.first ≠ none
  first_ne_second : ∀ node, mnpp.first = some node → mnpp.second ≠ some node

theorem not_has_free : ¬free.Has node := by
  rintro (h | h)
  · cases h
  · cases h

theorem packed_free : free.Packed := ⟨fun h => absurd rfl h, nofun⟩

theorem add_spec {ddg : Option DataDependenceGraph} {scheduled : MoveNode → Option Nat} {cycle : Nat}
    (h : mnpp.Packed) (hnot : ¬mnpp.Has node) (hadd : mnpp.add ddg scheduled cycle node = some mnpp') :
    mnpp'.Packed ∧ ∀ other, mnpp'.Has other ↔ mnpp.Has other ∨ other = node := by
  obtain ⟨first, second⟩ := mnpp
  unfold add at hadd
  cases first with
  | none =>
    obtain rfl : second = none := by
      by_contra hne
      exact h.first_of_second hne rfl
    cases hadd
    refine ⟨⟨fun h => absurd rfl h, fun _ _ => nofun⟩, fun other => ?_⟩
    simp [Has, eq_comm]
  | some first =>
    dsimp only at hadd
    split at hadd
    · cases hadd
    · next hfree =>
      cases hadd
      obtain rfl : second = none := by
        by_contra hne
        exact hfree (.inl hne)
      refine ⟨⟨fun _ => Option.some_ne_none _, fun other hother hsame => ?_⟩, fun other => ?_⟩
      · cases hsame
        exact hnot (.inl hother)
      · simp [Has, eq_comm]

theorem remove_spec (h : mnpp.Packed) (hremove : mnpp.remove node = some mnpp') :
    mnpp'.Packed ∧ ∀ other, mnpp'.Has other ↔ mnpp.Has other ∧ other ≠ node := by
  obtain ⟨first, second⟩ := mnpp
  unfold remove at hremove
  split at hremove
  · cases hremove
  · next hsome =>
    split at hremove
    · next hsecond =>
      obtain rfl : second = some node := hsecond
      cases hremove
      refine ⟨⟨fun h => absurd rfl h, fun _ _ => nofun⟩, fun other => ?_⟩
      have hne := h.first_ne_second
      constructor
      · rintro (hfirst | hnone)
        · exact ⟨.inl hfirst, fun heq => hne other hfirst (heq ▸ rfl)⟩
        · cases hnone
      · rintro ⟨hfirst | heq, hother⟩
        · exact .inl hfirst
        · exact absurd (Option.some.inj heq).symm hother
    · next hsecond =>
      split at hremove
      · next hfirst =>
        obtain rfl : first = some node := hfirst
        cases hremove
        refine ⟨⟨fun h => absurd rfl h, fun _ _ => nofun⟩, fun other => ?_⟩
        constructor
        · rintro (heq | hnone)
          · exact ⟨.inr heq, fun hother => hsecond (by rw [← hother]; exact heq)⟩
          · cases hnone
        · rintro ⟨heq | heq, hother⟩
          · exact absurd (Option.some.inj heq).symm hother
          · exact .inl heq
      · cases hremove

end OperandWrites

end Tce.ExecutionPipeline
