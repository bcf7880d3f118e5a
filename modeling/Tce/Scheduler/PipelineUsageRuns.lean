import Tce.Scheduler.PipelineUsage

/-!
# Runs of calls on a pipeline resource

In every run the entries of the operand ports have the writes that are assigned, and those of the
results count the reads; entries of the writes are kept when they are empty.
-/

namespace Tce.ExecutionPipeline
open ResourceReservationTable

/-! ## Slots -/

namespace ResourceReservationTable

/-- A slot that has a second trigger has a first one. -/
def Packed (table : ResourceReservationTable) : Prop :=
  ∀ r j, (table.slot r j).second ≠ none → (table.slot r j).first ≠ none

theorem packed_setSlot {table : ResourceReservationTable} (h : table.Packed) {modci j : Nat} {rr : ResourceReservation}
    (hrr : rr.second ≠ none → rr.first ≠ none) : (table.setSlot modci j rr).Packed := by
  intro r j'
  by_cases hj : j < (table.row modci).length
  · rw [slot_setSlot hj]
    split
    · exact hrr
    · exact h r j'
  · have hsame : (table.setSlot modci j rr).slot r j' = table.slot r j' := by
      rw [slot, slot, row_setSlot, List.set_eq_of_length_le (Nat.not_lt.1 hj)]
      split
      · next heq => rw [heq]
      · rfl
    rw [hsame]
    exact h r j'

theorem packed_insert {table : ResourceReservationTable} (h : table.Packed) (modci n : Nat) :
    Packed (table.insert modci (List.replicate n .free)) := by
  intro r j
  unfold slot row
  rw [SparseVector.find_insert]
  split
  · rw [Option.getD_some, List.getElem?_replicate]
    split <;> exact fun hne => absurd rfl hne
  · exact h r j

theorem packed_touch {table : ResourceReservationTable} (h : table.Packed) (modci : Nat) :
    Packed (table.touch modci []) := by
  intro r j
  unfold slot
  rw [row_touch]
  exact h r j

end ResourceReservationTable

namespace ExecutionPipelineResource
variable {ep ep' : ExecutionPipelineResource}

theorem packed_tryResources (ep : ExecutionPipelineResource) (scheduled : MoveNode → Option Nat) (node : MoveNode)
    (modCycle pIndex i modci : Nat) (js : List Nat) {table : ResourceReservationTable} (h : table.Packed)
    (assigned : List (Nat × Nat)) :
    (ep.tryResources scheduled node modCycle pIndex i modci js table assigned).2.1.Packed := by
  induction js generalizing table assigned with
  | nil => exact h
  | cons j js ih =>
    unfold tryResources
    split
    · dsimp only
      split
      · next first hfirst =>
        split
        · exact ih (packed_setSlot h fun _ => hfirst ▸ Option.some_ne_none _) _
        · exact h
      · exact ih (packed_setSlot h fun _ => Option.some_ne_none _) _
    · exact ih h _

theorem packed_tryCycles (ep : ExecutionPipelineResource) (scheduled : MoveNode → Option Nat) (node : MoveNode)
    (cycle pIndex : Nat) (is : List Nat) {table : ResourceReservationTable} (h : table.Packed)
    (assigned : List (Nat × Nat)) :
    (ep.tryCycles scheduled node cycle pIndex is table assigned).2.1.Packed := by
  induction is generalizing table assigned with
  | nil => exact h
  | cons i is ih =>
    unfold tryCycles
    dsimp only
    split
    · exact h
    · split
      · exact ih h _
      · split
        · exact ih (packed_touch h _) _
        · have hpacked := packed_tryResources ep scheduled node (ep.index cycle) pIndex i
            (ep.index (cycle + i)) (List.range ep.resources.numberOfResources) (packed_touch h (ep.index (cycle + i)))
            assigned
          split
          · next heq =>
            rw [heq] at hpacked
            exact ih hpacked _
          · next heq =>
            rw [heq] at hpacked
            exact hpacked

theorem packed_undoStep {cycle : Nat} {node : MoveNode} {assigned : List (Nat × Nat)}
    (table : ResourceReservationTable) (p : Nat × Nat) (table' : ResourceReservationTable) (h : table.Packed)
    (hstep : ep.undoStep cycle node assigned table p = .ok table') : table'.Packed := by
  unfold undoStep at hstep
  split at hstep
  · cases hundo : undo node (table.slot (ep.index (cycle + p.1)) p.2) with
    | error e =>
      rw [hundo] at hstep
      cases hstep
    | ok rr =>
      rw [hundo] at hstep
      cases hstep
      refine packed_setSlot h fun hsecond => ?_
      unfold undo at hundo
      split at hundo
      · split at hundo
        · cases hundo
        · cases hundo
          exact absurd rfl hsecond
      · split at hundo
        · cases hundo
          exact absurd rfl hsecond
        · cases hundo
  · cases hstep
    exact h

theorem packed_reserveStep {cycle pIndex : Nat} {node : MoveNode} (table : ResourceReservationTable) (p : Nat × Nat)
    (table' : ResourceReservationTable) (h : table.Packed)
    (hstep : ep.reserveStep cycle pIndex node table p = .ok table') : table'.Packed := by
  unfold reserveStep at hstep
  dsimp only at hstep
  have hrow : (if (table.row (ep.index (cycle + p.1))).length = 0 then
      table.insert (ep.index (cycle + p.1)) (List.replicate ep.resources.numberOfResources .free)
    else table : ResourceReservationTable).Packed := by
    split
    · exact packed_insert h _ _
    · exact h
  generalize (if (table.row (ep.index (cycle + p.1))).length = 0 then
      table.insert (ep.index (cycle + p.1)) (List.replicate ep.resources.numberOfResources .free)
    else table : ResourceReservationTable) = table₁ at hstep hrow
  split at hstep
  · cases hoccupy : occupy node (table₁.slot (ep.index (cycle + p.1)) p.2) with
    | error e =>
      rw [hoccupy] at hstep
      cases hstep
    | ok rr =>
      rw [hoccupy] at hstep
      cases hstep
      refine packed_setSlot hrow fun _ => ?_
      unfold occupy at hoccupy
      split at hoccupy
      · next hfirst =>
        split at hoccupy
        · cases hoccupy
        · cases hoccupy
          exact hfirst
      · cases hoccupy
        exact Option.some_ne_none _
  · cases hstep
    exact hrow

theorem packed_releaseStep {cycle pIndex : Nat} {node : MoveNode} (table : ResourceReservationTable) (p : Nat × Nat)
    (table' : ResourceReservationTable) (h : table.Packed)
    (hstep : ep.releaseStep cycle pIndex node table p = .ok table') : table'.Packed := by
  unfold releaseStep at hstep
  dsimp only at hstep
  split at hstep
  · cases hstep
  · cases hrelease : release (ep.resources.operationPipeline pIndex p.1 p.2) node
        (table.slot (ep.index (cycle + p.1)) p.2) with
    | error e =>
      rw [hrelease] at hstep
      cases hstep
    | ok rr =>
      rw [hrelease] at hstep
      cases hstep
      refine packed_setSlot h ?_
      unfold release at hrelease
      split at hrelease
      · split at hrelease
        · cases hrelease
          exact fun hsecond => absurd rfl hsecond
        · cases hrelease
      · split at hrelease
        · split at hrelease
          · cases hrelease
            exact fun hsecond => absurd rfl hsecond
          · cases hrelease
        · cases hrelease
          exact h _ _

/-- A query changes the table at most. -/
theorem query_keeps {scheduled : MoveNode → Option Nat} {cycle : Nat} {node : MoveNode} {b : Bool}
    (h : ep.resourcesAllowTrigger scheduled cycle node = .ok (b, ep')) :
    ∃ table, ep' = { ep with fuExecutionPipeline := table } ∧ (ep.fuExecutionPipeline.Packed → table.Packed) := by
  unfold resourcesAllowTrigger at h
  split at h
  · cases h
    exact ⟨_, rfl, id⟩
  · next pIndex _ =>
    rcases htry : ep.tryTrigger scheduled cycle node pIndex with ⟨can, table, assigned⟩
    rw [htry] at h
    have hpacked (hep : ep.fuExecutionPipeline.Packed) : table.Packed := by
      unfold tryTrigger at htry
      split at htry
      · cases htry
        exact hep
      · have := packed_tryCycles ep scheduled node cycle pIndex (List.range ep.resources.maximalLatency) hep []
        rw [htry] at this
        exact this
    dsimp only at h
    cases hfold : ep.positions.foldlM (ep.undoStep cycle node assigned) table with
    | error e =>
      rw [hfold] at h
      cases h
    | ok table' =>
      rw [hfold] at h
      cases h
      exact ⟨table', rfl, fun hep => Pointwise.foldlM_keeps packed_undoStep (hpacked hep) hfold⟩

theorem assignDestination_keeps {cycle : Nat} {node : MoveNode} (hdest : node.isDestinationOperation = true)
    (h : ep.assignDestination cycle node = .ok ep') :
    ∃ table, ep' = ep.withTrigger cycle node table ∧ (ep.fuExecutionPipeline.Packed → table.Packed) := by
  by_cases htrigger : node.isTriggering = true
  · by_cases hopcode : node.isOpcodeSetting = true
    · cases hname : ep.resources.operationIndex node.operation with
      | none =>
        unfold assignDestination at h
        simp [hdest, htrigger, hopcode, hname] at h
      | some pIndex =>
        rw [assignDestination_eq hdest htrigger hopcode hname] at h
        cases hfold : ep.positions.foldlM (ep.reserveStep cycle pIndex node) ep.fuExecutionPipeline with
        | error e =>
          rw [hfold] at h
          cases h
        | ok table =>
          rw [hfold] at h
          cases h
          exact ⟨table, rfl, fun hep => Pointwise.foldlM_keeps packed_reserveStep hep hfold⟩
    · unfold assignDestination at h
      simp [hdest, htrigger, hopcode] at h
  · unfold assignDestination at h
    simp only [hdest, htrigger, Bool.not_true, Bool.false_eq_true, if_false] at h
    cases h
    exact ⟨_, rfl, id⟩

theorem unassignDestination_keeps {cycle : Nat} {node : MoveNode} (hdest : node.isDestinationOperation = true)
    (hmem : node ∈ ep.assignedDestinationNodes.map Prod.snd) (h : ep.unassignDestination cycle node = .ok ep') :
    ∃ table, ep' = ep.withoutNode node table ∧ (ep.fuExecutionPipeline.Packed → table.Packed) := by
  by_cases htrigger : node.isTriggering = true
  · obtain ⟨pIndex, table, hfold, rfl⟩ := unassignDestination_eq hdest hmem htrigger h
    exact ⟨table, rfl, fun hep => Pointwise.foldlM_keeps packed_releaseStep hep hfold⟩
  · unfold unassignDestination at h
    simp only [hdest, htrigger, Bool.not_true, Bool.not_false, Bool.false_eq_true, if_false, if_true,
      if_neg (not_not.2 hmem)] at h
    exact ⟨_, (Except.ok.inj h).symm, id⟩

end ExecutionPipelineResource

/-! ## The invariant -/

namespace PipelineUsage
variable {unit : UnitPorts} {u u' : PipelineUsage} {resources : ResourceTable} {initiationInterval maxCycle : Nat}
  {ddg : Option DataDependenceGraph}

/-- The nodes that write an operand port at an instruction index. -/
def writes (u : PipelineUsage) (port m : Nat) : OperandWrites := ((u.operandsWriten port).find m).getD .free

/-- The reads from a port that has any. -/
def readsOf (u : PipelineUsage) (port : Nat) : SparseVector ResultHelperPair := (u.resultRead port).getD .empty

/-- The assigned reads of an operation from a port at an instruction index. -/
def readCount (unit : UnitPorts) (u : PipelineUsage) (port m po : Nat) : Nat :=
  u.ep.assignedSourceNodes.countP fun entry =>
    unit.resultPort entry.2 = port ∧ u.index entry.1 = m ∧ unit.sourceOperation entry.2 = po

/-- What is recorded is what is assigned. -/
structure Kept (unit : UnitPorts) (u : PipelineUsage) : Prop where
  table : u.ep.fuExecutionPipeline.Packed
  sources : (u.ep.assignedSourceNodes.map Prod.snd).Nodup
  destinations : (u.ep.assignedDestinationNodes.map Prod.snd).Nodup
  stored : ∀ entry ∈ u.ep.assignedSourceNodes, u.storedResultCycles entry.2 ≠ none
  writes_packed : ∀ port m, (u.writes port m).Packed
  writes_has : ∀ port m node, (u.writes port m).Has node ↔
    ∃ cycle, (cycle, node) ∈ u.ep.assignedDestinationNodes ∧ u.index cycle = m ∧ unit.operandPort node = port
  reads_filled : ∀ port m rhp, (u.readsOf port).find m = some rhp → rhp.Filled
  reads_eq : ∀ port m po, (((u.readsOf port).find m).getD (.free 0)).reads po = u.readCount unit port m po

/-- An entry of the reads is there for an assigned read. -/
theorem Kept.find_isSome_iff (h : Kept unit u) {port m : Nat} : ((u.readsOf port).find m).isSome = true ↔
    ∃ entry ∈ u.ep.assignedSourceNodes, unit.resultPort entry.2 = port ∧ u.index entry.1 = m := by
  constructor
  · intro hsome
    obtain ⟨rhp, hrhp⟩ := Option.isSome_iff_exists.1 hsome
    obtain ⟨po, hpos⟩ := (h.reads_filled port m rhp hrhp).reads_pos
    have heq := h.reads_eq port m po
    rw [hrhp, Option.getD_some] at heq
    rw [heq] at hpos
    obtain ⟨entry, hmem, hentry⟩ := List.countP_pos_iff.1 hpos
    have hentry := of_decide_eq_true hentry
    exact ⟨entry, hmem, hentry.1, hentry.2.1⟩
  · rintro ⟨entry, hmem, hport, hindex⟩
    have hpos : 0 < u.readCount unit port m (unit.sourceOperation entry.2) :=
      List.countP_pos_iff.2 ⟨entry, hmem, decide_eq_true ⟨hport, hindex, rfl⟩⟩
    rw [← h.reads_eq] at hpos
    by_contra hnone
    rw [Bool.not_eq_true, Option.isSome_eq_false_iff, Option.isNone_iff_eq_none] at hnone
    rw [hnone] at hpos
    exact Nat.lt_irrefl 0 hpos

/-! ## Steps -/

theorem index_congr {ep : ExecutionPipelineResource} (h : ep.initiationInterval = u.ep.initiationInterval)
    (cycle : Nat) : { u with ep := ep }.index cycle = u.index cycle := by
  rw [index, index, ExecutionPipelineResource.index, ExecutionPipelineResource.index, h]

/-- A unit that has the same nodes assigned. -/
theorem Kept.of_ep (h : Kept unit u) {ep : ExecutionPipelineResource}
    (htable : ep.fuExecutionPipeline.Packed) (hinterval : ep.initiationInterval = u.ep.initiationInterval)
    (hsources : ep.assignedSourceNodes = u.ep.assignedSourceNodes)
    (hdestinations : ep.assignedDestinationNodes = u.ep.assignedDestinationNodes) :
    Kept unit { u with ep := ep } := by
  have hindex := index_congr (u := u) hinterval
  refine ⟨htable, ?_, ?_, ?_, h.writes_packed, ?_, h.reads_filled, ?_⟩
  · exact hsources ▸ h.sources
  · exact hdestinations ▸ h.destinations
  · exact hsources ▸ h.stored
  · intro port m node
    simp only [hindex]
    exact hdestinations ▸ h.writes_has port m node
  · intro port m po
    unfold readCount
    simp only [hindex, hsources]
    exact h.reads_eq port m po

theorem kept_create : Kept unit (create resources initiationInterval maxCycle ddg) where
  table _ _ h := absurd rfl h
  sources := List.nodup_nil
  destinations := List.nodup_nil
  stored := nofun
  writes_packed _ _ := OperandWrites.packed_free
  writes_has _ _ _ := ⟨fun h => absurd h OperandWrites.not_has_free, fun ⟨_, h, _⟩ => absurd h List.not_mem_nil⟩
  reads_filled _ _ _ h := nomatch h
  reads_eq _ _ _ := rfl

theorem readsOf_update (u : PipelineUsage) (port : Nat) (v : SparseVector ResultHelperPair) (p : Nat) :
    ((Function.update u.resultRead port (some v)) p).getD .empty = if p = port then v else u.readsOf p := by
  rw [Function.update_apply, readsOf]
  split <;> rfl

theorem Kept.assignSource (h : Kept unit u) {cycle : Nat} {node : MoveNode} {resultReady : Option Nat}
    (hnot : node ∉ u.ep.assignedSourceNodes.map Prod.snd)
    (hassign : u.assignSource unit cycle node resultReady = some u') : Kept unit u' := by
  unfold PipelineUsage.assignSource at hassign
  dsimp only at hassign
  change (ResultHelperPair.addRead _ _ (if (u.readsOf (unit.resultPort node)).size ≤ u.index cycle then _
    else ((u.readsOf (unit.resultPort node)).find (u.index cycle)).getD (.free 0))).bind _ = _ at hassign
  obtain ⟨rhp, hadd, hu'⟩ := Option.bind_eq_some_iff.1 hassign
  cases hu'
  have hold (p : Nat) : (if (u.readsOf (unit.resultPort node)).size ≤ u.index cycle then
      ResultHelperPair.free (u.index cycle)
    else ((u.readsOf (unit.resultPort node)).find (u.index cycle)).getD (.free 0)).reads p =
      u.readCount unit (unit.resultPort node) (u.index cycle) p := by
    rw [← h.reads_eq]
    split
    · next hsize =>
      cases hfind : (u.readsOf (unit.resultPort node)).find (u.index cycle) with
      | none => rfl
      | some rhp =>
        have hlt : u.index cycle < (u.readsOf (unit.resultPort node)).size :=
          SparseVector.lt_size (by rw [hfind]; exact Option.some_ne_none _)
        exact absurd hlt (Nat.not_lt.2 hsize)
    · rfl
  obtain ⟨hfilled, hreads⟩ := ResultHelperPair.addRead_spec (by
    split
    · exact .inr ⟨_, rfl⟩
    · cases hfind : (u.readsOf (unit.resultPort node)).find (u.index cycle) with
      | none => exact .inr ⟨0, rfl⟩
      | some rhp => exact .inl (h.reads_filled _ _ _ hfind)) hadd
  simp only [hold] at hreads
  refine ⟨h.table, ?_, h.destinations, ?_, h.writes_packed, h.writes_has, ?_, ?_⟩
  · change ((u.ep.assignedSourceNodes ++ [(cycle, node)]).map Prod.snd).Nodup
    rw [List.map_append]
    refine h.sources.append (List.nodup_singleton node) fun other hmem heq => hnot ?_
    rwa [List.mem_singleton.1 heq] at hmem
  · intro entry hentry
    dsimp only
    rw [Function.update_apply]
    split
    · exact Option.some_ne_none _
    · next hne =>
      obtain hentry | hentry := List.mem_append.1 hentry
      · exact h.stored entry hentry
      · exact absurd (by rw [List.mem_singleton.1 hentry]) hne
  · intro port m rhp' hfind
    unfold readsOf at hfind
    dsimp only at hfind
    rw [readsOf_update] at hfind
    split at hfind
    · rw [SparseVector.find_insert] at hfind
      split at hfind
      · cases hfind
        exact hfilled
      · next hport _ => exact h.reads_filled port m rhp' (hport ▸ hfind)
    · exact h.reads_filled port m rhp' hfind
  · intro port m po
    have hcount : readCount unit { u with ep := { u.ep with
        assignedSourceNodes := u.ep.assignedSourceNodes ++ [(cycle, node)] } } port m po =
        u.readCount unit port m po + if unit.resultPort node = port ∧ u.index cycle = m ∧
          unit.sourceOperation node = po then 1 else 0 := by
      unfold readCount
      rw [List.countP_append, List.countP_singleton]
      simp only [decide_eq_true_eq]
      rfl
    refine Eq.trans ?_ hcount.symm
    unfold readsOf
    dsimp only
    rw [readsOf_update]
    by_cases hport : port = unit.resultPort node
    · subst hport
      rw [if_pos rfl, SparseVector.find_insert]
      by_cases hm : m = u.index cycle
      · subst hm
        rw [if_pos rfl, Option.getD_some, hreads]
        simp only [true_and]
      · rw [if_neg hm, if_neg fun hsame => hm hsame.2.1.symm, Nat.add_zero]
        exact h.reads_eq _ _ _
    · rw [if_neg hport, if_neg fun hsame => hport hsame.1.symm, Nat.add_zero]
      exact h.reads_eq _ _ _

/-- The port is looked up, and that is all. -/
theorem Kept.touch (h : Kept unit u) (port : Nat) :
    Kept unit { u with resultRead := Function.update u.resultRead port (some (u.readsOf port)) } := by
  have hreads (p : Nat) : readsOf { u with resultRead := Function.update u.resultRead port (some (u.readsOf port)) } p =
      u.readsOf p := by
    unfold readsOf
    dsimp only
    rw [readsOf_update]
    split
    · next heq => rw [heq]
    · rfl
  refine ⟨h.table, h.sources, h.destinations, h.stored, h.writes_packed, h.writes_has, ?_, ?_⟩
  · simp only [hreads]
    exact h.reads_filled
  · simp only [hreads]
    exact h.reads_eq

theorem countP_filter_ne {l : List (Nat × MoveNode)} (hnodup : (l.map Prod.snd).Nodup) {cycle : Nat} {node : MoveNode}
    (hmem : (cycle, node) ∈ l) (p : Nat × MoveNode → Bool) :
    (l.filter fun entry => entry.2 ≠ node).countP p + (if p (cycle, node) then 1 else 0) = l.countP p := by
  induction l with
  | nil => cases hmem
  | cons entry l ih =>
    rw [List.map_cons, List.nodup_cons] at hnodup
    by_cases hnode : entry.2 = node
    · have hentry : (cycle, node) = entry := by
        obtain heq | hmem := List.mem_cons.1 hmem
        · exact heq
        · exact absurd (hnode ▸ List.mem_map_of_mem hmem) hnodup.1
      have hrest : l.filter (fun entry => entry.2 ≠ node) = l := by
        apply List.filter_eq_self.2
        intro other hother
        refine decide_eq_true fun hsame => hnodup.1 ?_
        rw [hnode, ← hsame]
        exact List.mem_map_of_mem hother
      rw [List.filter_cons_of_neg (by simpa using hnode), hrest, hentry, List.countP_cons]
    · have hmem : (cycle, node) ∈ l := by
        obtain heq | hmem := List.mem_cons.1 hmem
        · exact absurd (by rw [← heq]) hnode
        · exact hmem
      rw [List.filter_cons_of_pos (by simpa using hnode), List.countP_cons, List.countP_cons, ← ih hnodup.2 hmem]
      omega

theorem Kept.unassignSource (h : Kept unit u) {cycle : Nat} {node : MoveNode}
    (hcycle : (cycle, node) ∈ u.ep.assignedSourceNodes ∨ node ∉ u.ep.assignedSourceNodes.map Prod.snd)
    (hunassign : u.unassignSource unit cycle node = some u') : Kept unit u' := by
  unfold PipelineUsage.unassignSource at hunassign
  dsimp only at hunassign
  change (if _ then some { u with
    resultRead := Function.update u.resultRead (unit.resultPort node) (some (u.readsOf (unit.resultPort node))) } else
    if _ then _ else if (u.readsOf (unit.resultPort node)).size ≤ u.index cycle then none else
    some { u with
      ep := _
      resultRead := Function.update u.resultRead (unit.resultPort node)
        (some (removeResultRead (u.index cycle) (unit.sourceOperation node) (u.readsOf (unit.resultPort node))))
      storedResultCycles := _ }) = _ at hunassign
  split at hunassign
  · cases hunassign
    exact h.touch _
  · next hassigned =>
    rw [not_not] at hassigned
    have hmem : (cycle, node) ∈ u.ep.assignedSourceNodes := hcycle.resolve_right (not_not.2 hassigned)
    rw [if_neg (h.stored _ hmem)] at hunassign
    split at hunassign
    · cases hunassign
    cases hunassign
    obtain ⟨rhp, hrhp⟩ := Option.isSome_iff_exists.1 (h.find_isSome_iff.2 ⟨_, hmem, rfl, rfl⟩)
    have hreads (p : Nat) : rhp.reads p = u.readCount unit (unit.resultPort node) (u.index cycle) p := by
      rw [← h.reads_eq, hrhp, Option.getD_some]
    have hpos : 0 < rhp.reads (unit.sourceOperation node) := by
      rw [hreads]
      exact List.countP_pos_iff.2 ⟨_, hmem, decide_eq_true ⟨rfl, rfl, rfl⟩⟩
    obtain ⟨hkept, herased⟩ := ResultHelperPair.removeRead_spec (u.index cycle) (h.reads_filled _ _ _ hrhp) hpos
    generalize hv : removeResultRead (u.index cycle) (unit.sourceOperation node) (u.readsOf (unit.resultPort node)) = v
    rw [removeResultRead, hrhp, Option.getD_some] at hv
    have hfind (m : Nat) (hm : m ≠ u.index cycle) : v.find m = (u.readsOf (unit.resultPort node)).find m := by
      rw [← hv]
      split
      · exact SparseVector.find_insert_ne _ _ hm
      · rw [SparseVector.find_erase, if_neg hm]
    have hfilled (rhp' : ResultHelperPair) (h' : v.find (u.index cycle) = some rhp') : rhp'.Filled := by
      rw [← hv] at h'
      split at h'
      · next hremove =>
        rw [SparseVector.find_insert_self] at h'
        exact (hkept rhp' (hremove.trans h')).1
      · rw [SparseVector.find_erase, if_pos rfl] at h'
        cases h'
    have hless (p : Nat) : ((v.find (u.index cycle)).getD (.free 0)).reads p +
        (if unit.sourceOperation node = p then 1 else 0) = rhp.reads p := by
      rw [← hv]
      split
      · next hremove =>
        rw [SparseVector.find_insert_self]
        exact (hkept _ hremove).2 p
      · next hremove =>
        rw [SparseVector.find_erase, if_pos rfl, Option.getD_none, ResultHelperPair.reads_free, Nat.zero_add]
        exact (herased hremove p).symm
    refine ⟨h.table, ?_, h.destinations, ?_, h.writes_packed, h.writes_has, ?_, ?_⟩
    · exact h.sources.sublist (List.filter_sublist.map Prod.snd)
    · intro entry hentry
      obtain ⟨hentry, hne⟩ := List.mem_filter.1 hentry
      dsimp only
      rw [Function.update_apply, if_neg (of_decide_eq_true hne)]
      exact h.stored entry hentry
    · intro port m rhp' h'
      unfold readsOf at h'
      dsimp only at h'
      rw [readsOf_update] at h'
      split at h'
      · next hport =>
        by_cases hm : m = u.index cycle
        · subst hm
          exact hfilled rhp' h'
        · rw [hfind m hm, ← hport] at h'
          exact h.reads_filled port m rhp' h'
      · exact h.reads_filled port m rhp' h'
    · intro port m po
      have hcount := countP_filter_ne h.sources hmem fun entry =>
        unit.resultPort entry.2 = port ∧ u.index entry.1 = m ∧ unit.sourceOperation entry.2 = po
      have heq := h.reads_eq port m po
      unfold readCount at heq
      rw [← hcount] at heq
      simp only [decide_eq_true_eq] at heq
      unfold readsOf
      dsimp only
      rw [readsOf_update]
      refine Eq.trans ?_ (rfl : (u.ep.assignedSourceNodes.filter fun entry => entry.2 ≠ node).countP (fun entry =>
        unit.resultPort entry.2 = port ∧ u.index entry.1 = m ∧ unit.sourceOperation entry.2 = po) = _)
      by_cases hport : port = unit.resultPort node
      · subst hport
        rw [if_pos rfl]
        by_cases hm : m = u.index cycle
        · subst hm
          rw [hrhp, Option.getD_some, ← hless] at heq
          simp only [true_and] at heq
          exact Nat.add_right_cancel heq
        · rw [hfind m hm]
          rwa [if_neg fun hsame => hm hsame.2.1.symm, Nat.add_zero] at heq
      · rw [if_neg hport]
        rwa [if_neg fun hsame => hport hsame.1.symm, Nat.add_zero] at heq

theorem writes_update (u : PipelineUsage) (port m : Nat) (mnpp : OperandWrites) (p m' : Nat) :
    (((Function.update u.operandsWriten port ((u.operandsWriten port).insert m mnpp)) p).find m').getD .free =
      if p = port ∧ m' = m then mnpp else u.writes p m' := by
  rw [Function.update_apply, writes]
  split
  · next hp =>
    rw [SparseVector.find_insert, hp]
    by_cases hm : m' = m
    · rw [if_pos hm, if_pos ⟨rfl, hm⟩, Option.getD_some]
    · rw [if_neg hm, if_neg fun h => hm h.2]
  · next hp => rw [if_neg fun h => hp h.1]

theorem Kept.packed_update (h : Kept unit u) {mnpp : OperandWrites} (hpacked : mnpp.Packed) (port m p m' : Nat) :
    ((((Function.update u.operandsWriten port ((u.operandsWriten port).insert m mnpp)) p).find m').getD
      .free).Packed := by
  rw [writes_update]
  split
  · exact hpacked
  · exact h.writes_packed p m'

theorem ok_of_toOption {ε α : Type} {r : Except ε α} {a : α} (h : r.toOption = some a) : r = .ok a := by
  cases r with
  | error e => cases h
  | ok b => exact congrArg _ (Option.some.inj h)

theorem Kept.assignDestination (h : Kept unit u) {scheduled : MoveNode → Option Nat} {cycle : Nat} {node : MoveNode}
    (hnot : node ∉ u.ep.assignedDestinationNodes.map Prod.snd)
    (hassign : u.assignDestination unit scheduled cycle node = some u') : Kept unit u' := by
  unfold PipelineUsage.assignDestination at hassign
  by_cases hdest : node.isDestinationOperation = true
  · rw [if_neg (by simpa using hdest)] at hassign
    dsimp only at hassign
    obtain ⟨ep, hep, hassign⟩ := Option.bind_eq_some_iff.1 hassign
    obtain ⟨mnpp, hadd, hassign⟩ := Option.bind_eq_some_iff.1 hassign
    cases hassign
    obtain ⟨table, rfl, htable⟩ := ExecutionPipelineResource.assignDestination_keeps hdest (ok_of_toOption hep)
    have hnone : ¬(u.writes (unit.operandPort node) (u.index cycle)).Has node := by
      intro hhas
      obtain ⟨cycle', hmem, -⟩ := (h.writes_has _ _ _).1 hhas
      exact hnot (List.mem_map_of_mem hmem)
    obtain ⟨hpacked, hhas⟩ := OperandWrites.add_spec (h.writes_packed _ _) hnone hadd
    have hmem (entry : Nat × MoveNode) : entry ∈ (u.ep.withTrigger cycle node table).assignedDestinationNodes ↔
        entry ∈ u.ep.assignedDestinationNodes ∨ entry = (cycle, node) := by
      rw [ExecutionPipelineResource.withTrigger, List.mem_append, List.mem_singleton]
    refine ⟨htable h.table, h.sources, ?_, h.stored, ?_, ?_, h.reads_filled, h.reads_eq⟩
    · change ((u.ep.assignedDestinationNodes ++ [(cycle, node)]).map Prod.snd).Nodup
      rw [List.map_append]
      refine h.destinations.append (List.nodup_singleton node) fun other hmem heq => hnot ?_
      rwa [List.mem_singleton.1 heq] at hmem
    · exact h.packed_update hpacked _ _
    · intro port m other
      unfold writes
      dsimp only
      rw [writes_update]
      simp only [hmem]
      change _ ↔ ∃ cycle', _ ∧ u.index cycle' = m ∧ _
      by_cases hsame : port = unit.operandPort node ∧ m = u.index cycle
      · obtain ⟨rfl, rfl⟩ := hsame
        rw [if_pos ⟨rfl, rfl⟩, hhas, h.writes_has]
        constructor
        · rintro (⟨cycle', hentry, hindex, hport⟩ | rfl)
          · exact ⟨cycle', .inl hentry, hindex, hport⟩
          · exact ⟨cycle, .inr rfl, rfl, rfl⟩
        · rintro ⟨cycle', hentry | hentry, hindex, hport⟩
          · exact .inl ⟨cycle', hentry, hindex, hport⟩
          · exact .inr (congrArg Prod.snd hentry)
      · rw [if_neg hsame, h.writes_has]
        constructor
        · rintro ⟨cycle', hentry, hindex, hport⟩
          exact ⟨cycle', .inl hentry, hindex, hport⟩
        · rintro ⟨cycle', hentry | hentry, hindex, hport⟩
          · exact ⟨cycle', hentry, hindex, hport⟩
          · cases hentry
            exact absurd ⟨hport.symm, hindex.symm⟩ hsame
  · rw [if_pos (by simpa using hdest)] at hassign
    cases hassign
    exact h

theorem Kept.unassignDestination (h : Kept unit u) {cycle : Nat} {node : MoveNode}
    (hcycle : (cycle, node) ∈ u.ep.assignedDestinationNodes ∨ node ∉ u.ep.assignedDestinationNodes.map Prod.snd)
    (hunassign : u.unassignDestination unit cycle node = some u') : Kept unit u' := by
  unfold PipelineUsage.unassignDestination at hunassign
  by_cases hdest : node.isDestinationOperation = true
  · rw [if_neg (by simpa using hdest)] at hunassign
    split at hunassign
    · cases hunassign
      exact h
    · next hassigned =>
      rw [not_not] at hassigned
      have hentry : (cycle, node) ∈ u.ep.assignedDestinationNodes := hcycle.resolve_right (not_not.2 hassigned)
      dsimp only at hunassign
      obtain ⟨mnpp, hremove, hunassign⟩ := Option.bind_eq_some_iff.1 hunassign
      obtain ⟨ep, hep, hunassign⟩ := Option.bind_eq_some_iff.1 hunassign
      cases hunassign
      obtain ⟨table, rfl, htable⟩ :=
        ExecutionPipelineResource.unassignDestination_keeps hdest hassigned (ok_of_toOption hep)
      obtain ⟨hpacked, hhas⟩ := OperandWrites.remove_spec (h.writes_packed _ _) hremove
      -- a node is assigned in one cycle
      have honly (cycle' : Nat) (hother : (cycle', node) ∈ u.ep.assignedDestinationNodes) : cycle' = cycle :=
        congrArg Prod.fst (List.inj_on_of_nodup_map h.destinations hother hentry rfl)
      refine ⟨htable h.table, h.sources, ?_, h.stored, ?_, ?_, h.reads_filled, h.reads_eq⟩
      · exact h.destinations.sublist (List.filter_sublist.map Prod.snd)
      · exact h.packed_update hpacked _ _
      · intro port m other
        unfold writes
        dsimp only
        rw [writes_update]
        simp only [ExecutionPipelineResource.mem_withoutNode]
        change _ ↔ ∃ cycle', _ ∧ u.index cycle' = m ∧ _
        by_cases hsame : port = unit.operandPort node ∧ m = u.index cycle
        · obtain ⟨rfl, rfl⟩ := hsame
          rw [if_pos ⟨rfl, rfl⟩, hhas, h.writes_has]
          constructor
          · rintro ⟨⟨cycle', hmem, hindex, hport⟩, hne⟩
            exact ⟨cycle', ⟨hmem, hne⟩, hindex, hport⟩
          · rintro ⟨cycle', ⟨hmem, hne⟩, hindex, hport⟩
            exact ⟨⟨cycle', hmem, hindex, hport⟩, hne⟩
        · rw [if_neg hsame, h.writes_has]
          constructor
          · rintro ⟨cycle', hmem, hindex, hport⟩
            refine ⟨cycle', ⟨hmem, ?_⟩, hindex, hport⟩
            rintro rfl
            rw [honly cycle' hmem] at hindex
            exact hsame ⟨hport.symm, hindex.symm⟩
          · rintro ⟨cycle', ⟨hmem, -⟩, hindex, hport⟩
            exact ⟨cycle', hmem, hindex, hport⟩
  · rw [if_pos (by simpa using hdest)] at hunassign
    cases hunassign
    exact h

theorem Kept.step (h : Kept unit u) (hstep : Step unit u u') : Kept unit u' := by
  cases hstep with
  | query scheduled cycle node b ep hquery =>
    obtain ⟨table, rfl, htable⟩ := ExecutionPipelineResource.query_keeps hquery
    exact h.of_ep (htable h.table) rfl rfl rfl
  | assignSource cycle node resultReady u' hnot hassign => exact h.assignSource hnot hassign
  | unassignSource cycle node u' hcycle hunassign => exact h.unassignSource hcycle hunassign
  | assignDestination scheduled cycle node u' hnot hassign => exact h.assignDestination hnot hassign
  | unassignDestination cycle node u' hcycle hunassign => exact h.unassignDestination hcycle hunassign
  | setDDG ddg => exact h.of_ep h.table rfl rfl rfl
  | setMaxCycle maxCycle => exact h.of_ep h.table rfl rfl rfl
  | clear => exact kept_create

theorem kept_of_reached (h : Reached unit resources initiationInterval maxCycle ddg u) : Kept unit u := by
  induction h with
  | start => exact kept_create
  | next _ hstep ih => exact ih.step hstep

end PipelineUsage

end Tce.ExecutionPipeline
