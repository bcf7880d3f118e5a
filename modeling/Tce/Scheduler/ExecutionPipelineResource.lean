import Tce.Base.SparseVector
import Tce.Base.Pointwise
import Tce.Scheduler.SchedulingResource

/-!
# Reservations of pipeline resources

The part of `ExecutionPipelineResource` that reserves the resources of the
pipeline of a function unit for triggers: a row for each instruction, with a
slot for each resource. A slot can be shared by two moves whose guards exclude
each other. `resourcesAllowTrigger` enters a trigger into the rows there are
and takes it out again.
-/

namespace Tce.ExecutionPipeline

/-- `ExecutionPipelineResourceTable`: what the operations of the unit use. -/
structure ResourceTable where
  numberOfResources : Nat
  maximalLatency : Nat
  operationSupported : List (String × Nat)
  operationPipelines : List (List (List Bool))
  deriving Repr

namespace ResourceTable

/-- None when the unit has no such operation. -/
def operationIndex (resources : ResourceTable) (opName : String) : Option Nat :=
  resources.operationSupported.lookup opName

def operationPipeline (resources : ResourceTable) (op cycle res : Nat) : Bool :=
  (((resources.operationPipelines[op]?.getD [])[cycle]?).getD [])[res]?.getD false

end ResourceTable

structure ResourceReservation where
  first : Option MoveNode
  second : Option MoveNode
  deriving DecidableEq, Repr

namespace ResourceReservation

def free : ResourceReservation := ⟨none, none⟩

/-- The trigger is the first or the second of the slot. -/
def Has (rr : ResourceReservation) (node : MoveNode) : Prop := rr.first = some node ∨ rr.second = some node

/-- At most one trigger, or two whose guards exclude each other. -/
def Safe (ddg : Option DataDependenceGraph) (rr : ResourceReservation) : Prop :=
  ∀ b, rr.second = some b → ∃ a, rr.first = some a ∧ MutuallyExclusive ddg a b

end ResourceReservation

/-- Failed assertions and exceptions. -/
inductive Fault where
  | resourceAlreadyInUse
  | assignmentToUndoNotFound
  | undoneAssignmentShared
  | missingRow
  | resourceNotUsedByOperation
  | moduleRunTimeError (message : String)
  | keyNotFound (message : String)
  deriving DecidableEq, Repr

abbrev ResourceReservationTable := SparseVector (List ResourceReservation)

namespace ResourceReservationTable

def row (table : ResourceReservationTable) (modci : Nat) : List ResourceReservation := (table.find modci).getD []

def slot (table : ResourceReservationTable) (modci j : Nat) : ResourceReservation := (table.row modci)[j]?.getD .free

def setSlot (table : ResourceReservationTable) (modci j : Nat) (rr : ResourceReservation) : ResourceReservationTable :=
  table.insert modci ((table.row modci).set j rr)

theorem row_setSlot (table : ResourceReservationTable) (modci j r : Nat) (rr : ResourceReservation) :
    (table.setSlot modci j rr).row r = if r = modci then (table.row modci).set j rr else table.row r := by
  simp only [row, setSlot, SparseVector.find_insert]
  split <;> rfl

@[simp] theorem length_row_setSlot (table : ResourceReservationTable) (modci j r : Nat) (rr : ResourceReservation) :
    ((table.setSlot modci j rr).row r).length = (table.row r).length := by
  rw [row_setSlot]
  split
  · next h => rw [List.length_set, h]
  · rfl

theorem slot_setSlot {table : ResourceReservationTable} {modci j : Nat} (h : j < (table.row modci).length)
    (rr : ResourceReservation) (r j' : Nat) :
    (table.setSlot modci j rr).slot r j' = if r = modci ∧ j' = j then rr else table.slot r j' := by
  simp only [slot, row_setSlot]
  by_cases hr : r = modci
  · subst hr
    rw [if_pos rfl, List.getElem?_set]
    by_cases hj : j' = j
    · subst hj
      simp [h]
    · simp [hj, Ne.symm hj]
  · simp [hr]

theorem slot_of_length_le {table : ResourceReservationTable} {r j : Nat} (h : (table.row r).length ≤ j) :
    table.slot r j = .free := by
  rw [slot, List.getElem?_eq_none h, Option.getD_none]

theorem lt_size_of_slot {table : ResourceReservationTable} {r j : Nat} (h : table.slot r j ≠ .free) : r < table.size := by
  apply SparseVector.lt_size
  intro hnone
  apply h
  rw [slot, row, hnone]
  rfl

/-- The same reservations: at most some empty rows are new. -/
def Same (table table' : ResourceReservationTable) : Prop :=
  ∀ r, table'.find r = table.find r ∨ (table.find r = none ∧ table'.find r = some [])

/-- The rows of the table are there, as long as before, and new rows are empty. -/
def Grown (table table' : ResourceReservationTable) : Prop :=
  ∀ r, match table.find r with
    | none => table'.find r = none ∨ table'.find r = some []
    | some row => ∃ row', table'.find r = some row' ∧ row'.length = row.length

theorem grown_refl (table : ResourceReservationTable) : Grown table table := by
  intro r
  cases h : table.find r with
  | none => exact .inl rfl
  | some row => exact ⟨row, rfl, rfl⟩

theorem Grown.trans {t t' t'' : ResourceReservationTable} (h : Grown t t') (h' : Grown t' t'') : Grown t t'' := by
  intro r
  have hr := h r
  have hr' := h' r
  cases ht : t.find r with
  | none =>
    simp only [ht] at hr ⊢
    rcases hr with hr | hr
    · simpa only [hr] using hr'
    · simp only [hr] at hr'
      obtain ⟨row', hrow', hlen⟩ := hr'
      rw [List.length_nil] at hlen
      exact .inr (List.length_eq_zero_iff.1 hlen ▸ hrow')
  | some row =>
    simp only [ht] at hr ⊢
    obtain ⟨row', hrow', hlen⟩ := hr
    simp only [hrow'] at hr'
    obtain ⟨row'', hrow'', hlen'⟩ := hr'
    exact ⟨row'', hrow'', hlen'.trans hlen⟩

theorem Grown.length_row {t t' : ResourceReservationTable} (h : Grown t t') (r : Nat) :
    (t'.row r).length = (t.row r).length := by
  have hr := h r
  unfold row
  cases ht : t.find r with
  | none =>
    simp only [ht] at hr
    rcases hr with hr | hr <;> simp [hr]
  | some row =>
    simp only [ht] at hr
    obtain ⟨row', hrow', hlen⟩ := hr
    simpa [hrow'] using hlen

theorem grown_setSlot {table : ResourceReservationTable} {modci j : Nat} (h : j < (table.row modci).length)
    (rr : ResourceReservation) : Grown table (table.setSlot modci j rr) := by
  intro r
  unfold row at h
  cases hr : table.find r with
  | none =>
    have hne : r ≠ modci := by
      rintro rfl
      simp [hr] at h
    exact .inl (by rw [setSlot, SparseVector.find_insert_ne _ _ hne, hr])
  | some old =>
    by_cases hne : r = modci
    · subst hne
      exact ⟨old.set j rr, by simp [setSlot, row, hr], List.length_set⟩
    · exact ⟨old, by rw [setSlot, SparseVector.find_insert_ne _ _ hne, hr], rfl⟩

theorem grown_touch (table : ResourceReservationTable) (modci : Nat) : Grown table (table.touch modci []) := by
  intro r
  have htouch := table.find_touch modci r []
  by_cases h : r = modci
  · subst h
    rw [if_pos rfl] at htouch
    cases hr : table.find r with
    | none => exact .inr (by rw [htouch, hr, Option.getD_none])
    | some old => exact ⟨old, by rw [htouch, hr, Option.getD_some], rfl⟩
  · rw [if_neg h] at htouch
    have hr := grown_refl table r
    rwa [← htouch] at hr ⊢

theorem row_touch (table : ResourceReservationTable) (modci r : Nat) :
    row (table.touch modci []) r = table.row r := by
  unfold row
  rw [SparseVector.find_touch]
  split
  · next h => rw [h, Option.getD_some]
  · rfl

/-- Rows of the same lengths with the same slots are the same. -/
theorem Grown.same {t t' : ResourceReservationTable} (h : Grown t t') (hslot : ∀ r j, t'.slot r j = t.slot r j) : Same t t' := by
  intro r
  have hr := h r
  cases ht : t.find r with
  | none =>
    simp only [ht] at hr
    exact hr.imp_right fun h => ⟨rfl, h⟩
  | some row =>
    simp only [ht] at hr
    obtain ⟨row', hrow', hlen⟩ := hr
    refine .inl (hrow'.trans (congrArg some (List.ext_getElem hlen fun j hj hj' => ?_)))
    simpa [slot, ResourceReservationTable.row, ht, hrow', hj, hj'] using hslot r j

end ResourceReservationTable

/-- `initiationInterval` is 0 without modulo scheduling. The assigned nodes are
kept with their cycles. -/
structure ExecutionPipelineResource where
  resources : ResourceTable
  initiationInterval : Nat
  maxCycle : Nat
  ddg : Option DataDependenceGraph
  fuExecutionPipeline : ResourceReservationTable
  assignedSourceNodes : List (Nat × MoveNode)
  assignedDestinationNodes : List (Nat × MoveNode)

namespace ExecutionPipelineResource

/-- A unit as the constructor makes it. -/
def create (resources : ResourceTable) (initiationInterval maxCycle : Nat) (ddg : Option DataDependenceGraph) :
    ExecutionPipelineResource :=
  { resources, initiationInterval, maxCycle, ddg, fuExecutionPipeline := .empty, assignedSourceNodes := [],
    assignedDestinationNodes := [] }

def index (ep : ExecutionPipelineResource) (cycle : Nat) : Nat := instructionIndex ep.initiationInterval cycle

/-- The steps of the loops over the cycles and the resources of an operation. -/
def positions (ep : ExecutionPipelineResource) : List (Nat × Nat) :=
  List.range ep.resources.maximalLatency ×ˢ List.range ep.resources.numberOfResources

/-- The initiation interval, `INT_MAX` without modulo scheduling. -/
def interval (ep : ExecutionPipelineResource) : Nat :=
  if ep.initiationInterval < 1 then intMax else ep.initiationInterval

/-- The last row in which a slot is held, and one more; rows before the first
cycle of an assigned node are not searched. -/
def size (ep : ExecutionPipelineResource) (table : ResourceReservationTable) : Nat :=
  if table.size = 0 ∨ (ep.assignedDestinationNodes = [] ∧ ep.assignedSourceNodes = []) then 0
  else
    let stoppingCycle := (ep.assignedSourceNodes.map Prod.fst).foldl min
      ((ep.assignedDestinationNodes.map Prod.fst).foldl min (table.size - 1))
    let held := (List.range table.size).reverse.find? fun i => stoppingCycle ≤ i &&
      (List.range ep.resources.numberOfResources).any fun j => (table.slot i j).first.isSome
    match held with
    | some i => i + 1
    | none => 0

/-- The loop over the resources in one cycle of the operation: false at the
first that is taken. Entered positions are collected. -/
def tryResources (ep : ExecutionPipelineResource) (scheduled : MoveNode → Option Nat) (node : MoveNode)
    (modCycle pIndex i modci : Nat) :
    List Nat → ResourceReservationTable → List (Nat × Nat) → Bool × ResourceReservationTable × List (Nat × Nat)
  | [], table, assigned => (true, table, assigned)
  | j :: js, table, assigned =>
    if ep.resources.operationPipeline pIndex i j then
      let rr := table.slot modci j
      match rr.first with
      | some first =>
        if rr.second = none ∧ exclusiveMoves ep.ddg scheduled first node modCycle then
          tryResources ep scheduled node modCycle pIndex i modci js
            (table.setSlot modci j { rr with second := some node }) ((i, j) :: assigned)
        else (false, table, assigned)
      | none =>
        tryResources ep scheduled node modCycle pIndex i modci js
          (table.setSlot modci j { rr with first := some node }) ((i, j) :: assigned)
    else tryResources ep scheduled node modCycle pIndex i modci js table assigned

/-- The loop over the cycles of the operation. -/
def tryCycles (ep : ExecutionPipelineResource) (scheduled : MoveNode → Option Nat) (node : MoveNode)
    (cycle pIndex : Nat) :
    List Nat → ResourceReservationTable → List (Nat × Nat) → Bool × ResourceReservationTable × List (Nat × Nat)
  | [], table, assigned => (true, table, assigned)
  | i :: is, table, assigned =>
    let modci := ep.index (cycle + i)
    if ep.interval = intMax ∧ ep.size table ≤ modci then (true, table, assigned)
    else if ep.interval ≠ intMax ∧ table.size ≤ modci then
      -- a later cycle may be in a row that there is
      tryCycles ep scheduled node cycle pIndex is table assigned
    else
      let table : ResourceReservationTable := table.touch modci []
      if (table.row modci).length = 0 then tryCycles ep scheduled node cycle pIndex is table assigned
      else
        match tryResources ep scheduled node (ep.index cycle) pIndex i modci
          (List.range ep.resources.numberOfResources) table assigned with
        | (true, table, assigned) => tryCycles ep scheduled node cycle pIndex is table assigned
        | (false, table, assigned) => (false, table, assigned)

/-- One entry of the trigger is taken out of its slot. -/
def undo (node : MoveNode) (rr : ResourceReservation) : Except Fault ResourceReservation :=
  if rr.first = some node then
    if rr.second ≠ none then .error .undoneAssignmentShared else .ok ⟨rr.second, none⟩
  else if rr.second = some node then .ok { rr with second := none }
  else .error .assignmentToUndoNotFound

def undoStep (ep : ExecutionPipelineResource) (cycle : Nat) (node : MoveNode) (assigned : List (Nat × Nat))
    (table : ResourceReservationTable) (p : Nat × Nat) : Except Fault ResourceReservationTable :=
  if p ∈ assigned then do
    let rr ← undo node (table.slot (ep.index (cycle + p.1)) p.2)
    return table.setSlot (ep.index (cycle + p.1)) p.2 rr
  else return table

def triggerName (node : MoveNode) : String :=
  if node.isOpcodeSetting then node.operation else node.hintOperation

/-- Some use of the operation is after the last cycle allowed. -/
def pastMaxCycle (ep : ExecutionPipelineResource) (cycle pIndex : Nat) : Bool :=
  decide (ep.maxCycle ≠ intMax) && ep.positions.any fun p =>
    ep.resources.operationPipeline pIndex p.1 p.2 && decide (cycle + p.1 > ep.maxCycle)

/-- The answer, the table with the trigger in it, and the entered positions. -/
def tryTrigger (ep : ExecutionPipelineResource) (scheduled : MoveNode → Option Nat) (cycle : Nat) (node : MoveNode)
    (pIndex : Nat) : Bool × ResourceReservationTable × List (Nat × Nat) :=
  if ep.pastMaxCycle cycle pIndex then (false, ep.fuExecutionPipeline, [])
  else ep.tryCycles scheduled node cycle pIndex (List.range ep.resources.maximalLatency) ep.fuExecutionPipeline []

/-- The answer, and the unit with the rows that the query has made. -/
def resourcesAllowTrigger (ep : ExecutionPipelineResource) (scheduled : MoveNode → Option Nat) (cycle : Nat)
    (node : MoveNode) : Except Fault (Bool × ExecutionPipelineResource) :=
  match ep.resources.operationIndex (triggerName node) with
  | none => .ok (false, ep)
  | some pIndex =>
    match ep.tryTrigger scheduled cycle node pIndex with
    | (canAssign, table, assigned) => do
      let table ← ep.positions.foldlM (ep.undoStep cycle node assigned) table
      return (canAssign, { ep with fuExecutionPipeline := table })

/-- A trigger is entered into a slot. -/
def occupy (node : MoveNode) (rr : ResourceReservation) : Except Fault ResourceReservation :=
  if rr.first ≠ none then
    if rr.second ≠ none then .error .resourceAlreadyInUse else .ok { rr with second := some node }
  else .ok { rr with first := some node }

/-- A missing row is made with all slots free. -/
def reserveStep (ep : ExecutionPipelineResource) (cycle pIndex : Nat) (node : MoveNode) (table : ResourceReservationTable)
    (p : Nat × Nat) : Except Fault ResourceReservationTable :=
  let modic := ep.index (cycle + p.1)
  let table : ResourceReservationTable := if (table.row modic).length = 0 then
      table.insert modic (List.replicate ep.resources.numberOfResources .free)
    else table
  if ep.resources.operationPipeline pIndex p.1 p.2 then do
    let rr ← occupy node (table.slot modic p.2)
    return table.setSlot modic p.2 rr
  else return table

def assignDestination (ep : ExecutionPipelineResource) (cycle : Nat) (node : MoveNode) :
    Except Fault ExecutionPipelineResource :=
  if !node.isDestinationOperation then .ok ep
  else
    let ep := { ep with assignedDestinationNodes := ep.assignedDestinationNodes ++ [(cycle, node)] }
    if node.isTriggering then
      if node.isOpcodeSetting then
        match ep.resources.operationIndex node.operation with
        | some pIndex => do
          let table ← ep.positions.foldlM (ep.reserveStep cycle pIndex node) ep.fuExecutionPipeline
          return { ep with fuExecutionPipeline := table }
        | none => .error (.keyNotFound ("Operation " ++ node.operation ++ " is not implemented"))
      else .error (.moduleRunTimeError "Using non opcodeSetting triggering move. ")
    else .ok ep

/-- The trigger is taken out of a slot; the operation must use the slot in the
cycle in which the loop comes to it. -/
def release (uses : Bool) (node : MoveNode) (rr : ResourceReservation) : Except Fault ResourceReservation :=
  if rr.first = some node then if uses then .ok ⟨rr.second, none⟩ else .error .resourceNotUsedByOperation
  else if rr.second = some node then
    if uses then .ok { rr with second := none } else .error .resourceNotUsedByOperation
  else .ok rr

def releaseStep (ep : ExecutionPipelineResource) (cycle pIndex : Nat) (node : MoveNode) (table : ResourceReservationTable)
    (p : Nat × Nat) : Except Fault ResourceReservationTable :=
  let modic := ep.index (cycle + p.1)
  if (table.row modic).length = 0 then .error .missingRow
  else do
    let rr ← release (ep.resources.operationPipeline pIndex p.1 p.2) node (table.slot modic p.2)
    return table.setSlot modic p.2 rr

def unassignDestination (ep : ExecutionPipelineResource) (cycle : Nat) (node : MoveNode) :
    Except Fault ExecutionPipelineResource :=
  if !node.isDestinationOperation then .ok ep
  else if node ∉ ep.assignedDestinationNodes.map Prod.snd then .ok ep
  else
    let ep := { ep with assignedDestinationNodes := ep.assignedDestinationNodes.filter fun entry => entry.2 ≠ node }
    if !node.isTriggering then .ok ep
    else
      match ep.resources.operationIndex (triggerName node) with
      | none => .error (.moduleRunTimeError
          ("Trying to unassign operation '" ++ triggerName node ++ "' not supported on FU!"))
      | some pIndex =>
        if ep.index (cycle + ep.resources.maximalLatency - 1) ≥ ep.fuExecutionPipeline.size then
          .error (.moduleRunTimeError ("Unassigning operation longer then scope! - cycle:" ++ toString cycle ++
            " - scope:" ++ toString ep.fuExecutionPipeline.size ++ " - ii:" ++ toString ep.initiationInterval))
        else do
          let table ← ep.positions.foldlM (ep.releaseStep cycle pIndex node) ep.fuExecutionPipeline
          return { ep with fuExecutionPipeline := table }

/-! ## The search for the last row that is held -/

theorem foldl_min_le (l : List Nat) (init : Nat) : l.foldl min init ≤ init ∧ ∀ c ∈ l, l.foldl min init ≤ c := by
  induction l generalizing init with
  | nil => exact ⟨Nat.le_refl _, fun c hc => by cases hc⟩
  | cons b l ih =>
    obtain ⟨hinit, hall⟩ := ih (min init b)
    rw [List.foldl_cons]
    refine ⟨hinit.trans (Nat.min_le_left _ _), fun c hc => ?_⟩
    cases List.mem_cons.1 hc with
    | inl h => exact h ▸ hinit.trans (Nat.min_le_right _ _)
    | inr h => exact hall c h

/-- A search from the end finds no number before one that is there. -/
theorem find_reverse_range {p : Nat → Bool} {n r : Nat} (hr : r < n) (hp : p r = true) :
    ∃ i, (List.range n).reverse.find? p = some i ∧ r ≤ i := by
  induction n with
  | zero => omega
  | succ n ih =>
    rw [List.range_succ, List.reverse_append, List.reverse_singleton, List.singleton_append, List.find?_cons]
    cases hn : p n with
    | true => exact ⟨n, rfl, by omega⟩
    | false =>
      have hne : r ≠ n := by
        rintro rfl
        rw [hp] at hn
        cases hn
      exact ih (by omega)

/-- A row that holds a trigger is below the size, if an assigned node is not after it. -/
theorem lt_size {ep : ExecutionPipelineResource} {table : ResourceReservationTable} {r j : Nat}
    (hheld : (table.slot r j).first ≠ none) (hj : j < ep.resources.numberOfResources) {entry : Nat × MoveNode}
    (hentry : entry ∈ ep.assignedDestinationNodes) (hle : entry.1 ≤ r) : r < ep.size table := by
  have hr : r < table.size := ResourceReservationTable.lt_size_of_slot fun h => hheld (by rw [h]; rfl)
  have hne : ¬(table.size = 0 ∨ (ep.assignedDestinationNodes = [] ∧ ep.assignedSourceNodes = [])) := by
    rintro (h | ⟨h, -⟩)
    · omega
    · rw [h] at hentry
      cases hentry
  unfold size
  rw [if_neg hne]
  dsimp only
  have hstop : (ep.assignedSourceNodes.map Prod.fst).foldl min
      ((ep.assignedDestinationNodes.map Prod.fst).foldl min (table.size - 1)) ≤ r := by
    refine (foldl_min_le _ _).1.trans (Nat.le_trans ?_ hle)
    exact (foldl_min_le _ _).2 _ (List.mem_map_of_mem hentry)
  obtain ⟨i, hfind, hi⟩ := find_reverse_range (p := fun i => decide (_ ≤ i) &&
      (List.range ep.resources.numberOfResources).any fun j => (table.slot i j).first.isSome) hr (by
    rw [Bool.and_eq_true, decide_eq_true_eq, List.any_eq_true]
    exact ⟨hstop, j, List.mem_range.2 hj, Option.isSome_iff_ne_none.2 hheld⟩)
  rw [hfind]
  exact Nat.lt_succ_of_le hi

end ExecutionPipelineResource

end Tce.ExecutionPipeline
