import Tce.Scheduler.ReservationUpdate

/-!
# Runs of assignments and unassignments of triggers

A slot is held by the triggers whose operations use it, and is shared by two at
most, whose guards exclude each other. The query misses one thing: an operation
longer than the initiation interval can come to one slot twice, and this is not
seen in a row that is missing or empty.
-/

namespace Tce.ExecutionPipeline.ExecutionPipelineResource
open ResourceReservation ResourceReservationTable

/-- The operation of the trigger uses the resource in its cycle `i`. -/
def Uses (ep : ExecutionPipelineResource) (node : MoveNode) (i j : Nat) : Prop :=
  node.isDestinationOperation = true ∧ node.isTriggering = true ∧ node.isOpcodeSetting = true ∧
    (i, j) ∈ ep.positions ∧ ∃ pIndex, ep.resources.operationIndex node.operation = some pIndex ∧
      ep.resources.operationPipeline pIndex i j = true

/-- An assigned trigger uses the resource in a cycle of the row. -/
def Holds (ep : ExecutionPipelineResource) (node : MoveNode) (r j : Nat) : Prop :=
  ∃ cycle i, (cycle, node) ∈ ep.assignedDestinationNodes ∧ ep.Uses node i j ∧ ep.index (cycle + i) = r

/-- The operation comes to no slot twice. -/
def Once (ep : ExecutionPipelineResource) (cycle : Nat) (node : MoveNode) : Prop :=
  ∀ i i' j, ep.Uses node i j → ep.Uses node i' j → ep.index (cycle + i) = ep.index (cycle + i') → i = i'

/-- The operation comes twice to a slot whose row is missing or empty. -/
def WrapsUnseen (ep : ExecutionPipelineResource) (cycle : Nat) (node : MoveNode) : Prop :=
  ∃ i i' j, i ≠ i' ∧ ep.Uses node i j ∧ ep.Uses node i' j ∧ ep.index (cycle + i) = ep.index (cycle + i') ∧
    ep.fuExecutionPipeline.row (ep.index (cycle + i)) = []

/-- An interval of `INT_MAX` stands for none, which is right for cycles below it. -/
def Fits (ep : ExecutionPipelineResource) (cycle : Nat) : Prop :=
  ep.initiationInterval = intMax → cycle + ep.resources.maximalLatency ≤ intMax

/-- No slot is held by a third trigger, or by two that may both be executed. -/
def Safe (ep : ExecutionPipelineResource) : Prop := ∀ r j, (ep.fuExecutionPipeline.slot r j).Safe ep.ddg

structure Inv (ep : ExecutionPipelineResource) : Prop where
  sized : ep.Sized ep.fuExecutionPipeline
  distinct : (ep.assignedDestinationNodes.map Prod.snd).Nodup
  fits : ∀ entry ∈ ep.assignedDestinationNodes, entry.2.isTriggering = true → ep.Fits entry.1
  rows : ∀ entry ∈ ep.assignedDestinationNodes, entry.2.isTriggering = true → ∀ p ∈ ep.positions,
    ep.fuExecutionPipeline.row (ep.index (entry.1 + p.1)) ≠ []
  held : ∀ r j node, (ep.fuExecutionPipeline.slot r j).Has node ↔ ep.Holds node r j
  safe : ep.Safe
  once : ∀ entry ∈ ep.assignedDestinationNodes, ep.Once entry.1 entry.2

theorem inv_create (resources : ResourceTable) (initiationInterval maxCycle : Nat) (ddg : Option DataDependenceGraph) :
    Inv (create resources initiationInterval maxCycle ddg) where
  sized r := .inl rfl
  distinct := List.nodup_nil
  fits entry h := by cases h
  rows entry h := by cases h
  held r j node := by
    constructor
    · rintro (h | h) <;> cases h
    · rintro ⟨cycle, i, h, -⟩
      cases h
  safe r j b h := by cases h
  once entry h := by cases h

theorem line {ep : ExecutionPipelineResource} {cycle : Nat} (h : ep.Fits cycle) : ep.Line cycle := by
  intro hint i hi
  unfold interval at hint
  unfold index instructionIndex
  split at hint
  · next hlt => rw [if_neg (by omega)]
  · have := h hint
    rw [if_pos (by omega), hint]
    exact Nat.mod_eq_of_lt (by omega)

/-- Tables with the same reservations have the same rows. -/
theorem row_same {table table' : ResourceReservationTable} (h : Same table table') : table'.row = table.row := by
  funext r
  unfold row
  rcases h r with hr | ⟨hr, hr'⟩
  · rw [hr]
  · rw [hr, hr']
    rfl

theorem slot_same {table table' : ResourceReservationTable} (h : Same table table') : table'.slot = table.slot := by
  funext r j
  rw [slot, row_same h, slot]

theorem inv_same {ep : ExecutionPipelineResource} (hinv : Inv ep) {table : ResourceReservationTable}
    (h : Same ep.fuExecutionPipeline table) : Inv { ep with fuExecutionPipeline := table } where
  sized r := by
    dsimp only
    rw [row_same h]
    exact hinv.sized r
  distinct := hinv.distinct
  fits := hinv.fits
  rows entry hentry htrigger p hp := by
    dsimp only
    rw [row_same h]
    exact hinv.rows entry hentry htrigger p hp
  held r j node := by
    dsimp only
    rw [slot_same h]
    exact hinv.held r j node
  safe r j := by
    dsimp only
    rw [slot_same h]
    exact hinv.safe r j
  once := hinv.once

theorem wrapsUnseen_same {ep : ExecutionPipelineResource} {table : ResourceReservationTable}
    (h : Same ep.fuExecutionPipeline table) {cycle : Nat} {node : MoveNode} :
    ({ ep with fuExecutionPipeline := table } : ExecutionPipelineResource).WrapsUnseen cycle node ↔
      ep.WrapsUnseen cycle node := by
  unfold WrapsUnseen
  dsimp only
  rw [row_same h]
  rfl

/-! ## The answer of the query -/

/-- Each slot that the operation uses admits the trigger, and is used twice only
in a row that is missing or empty. -/
def Admits (ep : ExecutionPipelineResource) (cycle : Nat) (node : MoveNode) : Prop :=
  ∃ pIndex, ep.resources.operationIndex (triggerName node) = some pIndex ∧
    ∀ i j, (i, j) ∈ ep.positions → ep.resources.operationPipeline pIndex i j = true →
      Open ep.ddg node (ep.fuExecutionPipeline.slot (ep.index (cycle + i)) j) ∧
      ∀ i', (i', j) ∈ ep.positions → ep.resources.operationPipeline pIndex i' j = true →
        ep.index (cycle + i) = ep.index (cycle + i') →
        i = i' ∨ ep.fuExecutionPipeline.row (ep.index (cycle + i)) = []

theorem admits_same {ep : ExecutionPipelineResource} {table : ResourceReservationTable}
    (h : Same ep.fuExecutionPipeline table) {cycle : Nat} {node : MoveNode} :
    ({ ep with fuExecutionPipeline := table } : ExecutionPipelineResource).Admits cycle node ↔
      ep.Admits cycle node := by
  unfold Admits
  dsimp only
  rw [row_same h, slot_same h]
  rfl

/-- The query leaves the reservations as they are, and allows triggers that the
slots admit. -/
theorem query_spec {ep : ExecutionPipelineResource} (hinv : Inv ep) (scheduled : MoveNode → Option Nat) (cycle : Nat)
    (node : MoveNode) : ∃ b table,
    ep.resourcesAllowTrigger scheduled cycle node = .ok (b, { ep with fuExecutionPipeline := table }) ∧
      Same ep.fuExecutionPipeline table ∧ (b = true → ep.Fits cycle → ep.Admits cycle node) := by
  unfold resourcesAllowTrigger
  cases hname : ep.resources.operationIndex (triggerName node) with
  | none => exact ⟨false, ep.fuExecutionPipeline, rfl, fun r => .inl rfl, fun h => by cases h⟩
  | some pIndex =>
    have hlast : ep.interval = intMax → ∀ r j, (ep.fuExecutionPipeline.slot r j).first ≠ none →
        j < ep.resources.numberOfResources ∧ ∃ entry ∈ ep.assignedDestinationNodes, entry.1 ≤ r := by
      intro hint r j hfirst
      obtain ⟨m, hm⟩ := Option.ne_none_iff_exists'.1 hfirst
      obtain ⟨c, i, hentry, huses, hindex⟩ := (hinv.held r j m).1 (.inl hm)
      obtain ⟨hi, hj⟩ := mem_positions.1 huses.2.2.2.1
      refine ⟨hj, (c, m), hentry, ?_⟩
      have := line (hinv.fits (c, m) hentry huses.2.1) hint i hi
      dsimp only at this ⊢
      omega
    obtain ⟨b, after, assigned, htry⟩ : ∃ b after assigned,
        ep.tryTrigger scheduled cycle node pIndex = (b, after, assigned) := ⟨_, _, _, rfl⟩
    have htried : Tried ep node cycle pIndex ep.fuExecutionPipeline after assigned ∧ (b = true → ep.Line cycle →
        ∀ i ∈ List.range ep.resources.maximalLatency, ∀ j < ep.resources.numberOfResources,
        ep.resources.operationPipeline pIndex i j = true → (i, j) ∈ assigned ∨
          ep.fuExecutionPipeline.row (ep.index (cycle + i)) = [] ∨
          (ep.interval = intMax ∧ ep.fuExecutionPipeline.slot (ep.index (cycle + i)) j = .free)) := by
      unfold tryTrigger at htry
      split_ifs at htry with hpast
      · cases htry
        exact ⟨tried_nil, fun h => by cases h⟩
      · obtain ⟨htried, -, hall⟩ := tryCycles_spec hinv.safe hinv.sized hlast List.pairwise_lt_range
          (fun i hi => List.mem_range.1 hi) tried_nil htry
        exact ⟨htried, hall⟩
    obtain ⟨htried, hall⟩ := htried
    obtain ⟨table, hundo, hsame⟩ := undo_tried htried
    refine ⟨b, table, by simp only [htry, hundo]; rfl, hsame, fun hb hfits => ⟨pIndex, hname, fun i j hij huse => ?_⟩⟩
    obtain ⟨hi, hj⟩ := mem_positions.1 hij
    have hentered := hall hb (line hfits)
    constructor
    · rcases hentered i (List.mem_range.2 hi) j hj huse with h | h | h
      · exact htried.admits i j h
      · exact .inl (slot_of_length_le (by rw [h]; exact Nat.zero_le _))
      · exact .inl h.2
    · intro i' hij' huse' hindex
      obtain ⟨hi', -⟩ := mem_positions.1 hij'
      by_cases hint : ep.interval = intMax
      · have h := line hfits hint i hi
        have h' := line hfits hint i' hi'
        dsimp only at hi hi'
        exact .inl (by omega)
      rcases hentered i (List.mem_range.2 hi) j hj huse with h | h | h
      · rcases hentered i' (List.mem_range.2 hi') j hj huse' with h' | h' | h'
        · exact .inl (htried.distinct i i' j h h' hindex)
        · exact .inr (hindex ▸ h')
        · exact absurd h'.1 hint
      · exact .inr h
      · exact absurd h.1 hint

/-! ## Assignments -/

section assign
variable {ep : ExecutionPipelineResource} {cycle : Nat} {node : MoveNode}

/-- The unit with the trigger entered into the table. -/
def withTrigger (ep : ExecutionPipelineResource) (cycle : Nat) (node : MoveNode) (table : ResourceReservationTable) :
    ExecutionPipelineResource :=
  { ep with
    assignedDestinationNodes := ep.assignedDestinationNodes ++ [(cycle, node)]
    fuExecutionPipeline := table }

/-- For a trigger that sets the opcode an assignment is a reservation. -/
theorem assignDestination_eq {pIndex : Nat} (hdest : node.isDestinationOperation = true)
    (htrigger : node.isTriggering = true) (hopcode : node.isOpcodeSetting = true)
    (hname : ep.resources.operationIndex node.operation = some pIndex) :
    ep.assignDestination cycle node = do
      let table ← ep.positions.foldlM (ep.reserveStep cycle pIndex node) ep.fuExecutionPipeline
      return ep.withTrigger cycle node table := by
  simp only [assignDestination, hdest, htrigger, hopcode, hname, Bool.not_true, Bool.false_eq_true, if_false, if_true]
  rfl

theorem triggerName_eq (hopcode : node.isOpcodeSetting = true) : triggerName node = node.operation := by
  rw [triggerName, if_pos hopcode]

theorem holds_withTrigger (table : ResourceReservationTable) (m : MoveNode) (r j : Nat) :
    (ep.withTrigger cycle node table).Holds m r j ↔
      ep.Holds m r j ∨ (m = node ∧ ∃ i, ep.Uses node i j ∧ ep.index (cycle + i) = r) := by
  constructor
  · rintro ⟨c, i, hmem, huses, hindex⟩
    cases List.mem_append.1 hmem with
    | inl h => exact .inl ⟨c, i, h, huses, hindex⟩
    | inr h =>
      cases List.mem_singleton.1 h
      exact .inr ⟨rfl, i, huses, hindex⟩
  · rintro (⟨c, i, hmem, huses, hindex⟩ | ⟨rfl, i, huses, hindex⟩)
    · exact ⟨c, i, List.mem_append_left _ hmem, huses, hindex⟩
    · exact ⟨cycle, i, List.mem_append_right _ (List.mem_singleton_self _), huses, hindex⟩

/-- A trigger that the slots admit is assigned when it does not wrap unseen. -/
theorem inv_assign (hinv : Inv ep) (hnot : node ∉ ep.assignedDestinationNodes.map Prod.snd) (hfits : ep.Fits cycle)
    (hadmits : ep.Admits cycle node) (hwraps : ¬ep.WrapsUnseen cycle node) (hdest : node.isDestinationOperation = true)
    (htrigger : node.isTriggering = true) (hopcode : node.isOpcodeSetting = true) :
    ∃ ep', ep.assignDestination cycle node = .ok ep' ∧ Inv ep' := by
  obtain ⟨pIndex, hname, hall⟩ := hadmits
  rw [triggerName_eq hopcode] at hname
  have huses {i j : Nat} (hij : (i, j) ∈ ep.positions) (huse : ep.resources.operationPipeline pIndex i j = true) :
      ep.Uses node i j := ⟨hdest, htrigger, hopcode, hij, pIndex, hname, huse⟩
  have huse {i j : Nat} (h : ep.Uses node i j) :
      (i, j) ∈ ep.positions ∧ ep.resources.operationPipeline pIndex i j = true := by
    obtain ⟨-, -, -, hij, p, hp, hpipe⟩ := h
    obtain rfl : pIndex = p := Option.some.inj (hname.symm.trans hp)
    exact ⟨hij, hpipe⟩
  have honce : ep.Once cycle node := by
    intro i i' j h h' hindex
    by_contra hne
    have hrow := ((hall i j (huse h).1 (huse h).2).2 i' (huse h').1 (huse h').2 hindex).resolve_left hne
    exact hwraps ⟨i, i', j, hne, h, h', hindex, hrow⟩
  obtain ⟨table, hreserve, hsized, hmarked, hothers⟩ := reserve_spec cycle pIndex node hinv.sized
    (fun p hp hu => (hall p.1 p.2 hp hu).1) (by
      rintro ⟨i, j⟩ hp ⟨i', j'⟩ hq hu hu' hplace
      simp only [place, Prod.mk.injEq] at hplace
      obtain ⟨hindex, rfl⟩ := hplace
      rw [honce i i' j (huses hp hu) (huses hq hu') hindex])
  obtain ⟨hkeep, hrows⟩ := reserve_rows (fun p hp => hp) hinv.sized hreserve
  -- a slot is entered when the operation uses it, and is as before otherwise
  have hslot (r j : Nat) : (∃ i, ep.Uses node i j ∧ ep.index (cycle + i) = r ∧
      Open ep.ddg node (ep.fuExecutionPipeline.slot r j) ∧ table.slot r j = mark node (ep.fuExecutionPipeline.slot r j)) ∨
      ((∀ i, ep.Uses node i j → ep.index (cycle + i) ≠ r) ∧ table.slot r j = ep.fuExecutionPipeline.slot r j) := by
    by_cases hex : ∃ i, ep.Uses node i j ∧ ep.index (cycle + i) = r
    · obtain ⟨i, hi, rfl⟩ := hex
      exact .inl ⟨i, hi, rfl, (hall i j (huse hi).1 (huse hi).2).1, hmarked (i, j) (huse hi).1 (huse hi).2⟩
    · refine .inr ⟨fun i hi heq => hex ⟨i, hi, heq⟩, hothers r j ?_⟩
      rintro ⟨i, j'⟩ hp hu hplace
      simp only [place, Prod.mk.injEq] at hplace
      obtain ⟨hindex, rfl⟩ := hplace
      exact hex ⟨i, huses hp hu, hindex⟩
  refine ⟨ep.withTrigger cycle node table, ?_, hsized, ?_, ?_, ?_, ?_, ?_, ?_⟩
  case refine_1 => rw [assignDestination_eq hdest htrigger hopcode hname, hreserve]; rfl
  case refine_2 =>
    simp only [withTrigger, List.map_append, List.map_cons, List.map_nil]
    exact List.nodup_append.2 ⟨hinv.distinct, List.nodup_singleton _, fun a ha b hb hab =>
      hnot (List.mem_singleton.1 hb ▸ hab ▸ ha)⟩
  case refine_3 =>
    intro entry hentry htrig
    cases List.mem_append.1 hentry with
    | inl h => exact hinv.fits entry h htrig
    | inr h => exact List.mem_singleton.1 h ▸ hfits
  case refine_4 =>
    intro entry hentry htrig p hp
    cases List.mem_append.1 hentry with
    | inl h => exact hkeep _ (hinv.rows entry h htrig p hp)
    | inr h => exact List.mem_singleton.1 h ▸ hrows p hp
  case refine_5 =>
    intro r j m
    rw [holds_withTrigger, ← hinv.held]
    simp only [withTrigger]
    rcases hslot r j with ⟨i, hi, hindex, hopen, heq⟩ | ⟨hnone, heq⟩
    · rw [heq, has_mark hopen]
      exact or_congr_right ⟨fun h => ⟨h, i, hi, hindex⟩, And.left⟩
    · rw [heq]
      refine ⟨.inl, fun h => h.resolve_right ?_⟩
      rintro ⟨-, i, hi, hindex⟩
      exact hnone i hi hindex
  case refine_6 =>
    intro r j
    simp only [withTrigger]
    rcases hslot r j with ⟨i, -, -, hopen, heq⟩ | ⟨-, heq⟩
    · rw [heq]
      exact safe_mark hopen
    · rw [heq]
      exact hinv.safe r j
  case refine_7 =>
    intro entry hentry
    cases List.mem_append.1 hentry with
    | inl h => exact hinv.once entry h
    | inr h => exact List.mem_singleton.1 h ▸ honce

/-- A trigger that wraps unseen reaches the assertion or is in a slot twice. -/
theorem assign_wraps (hinv : Inv ep) (hwraps : ep.WrapsUnseen cycle node) :
    ep.assignDestination cycle node = .error .resourceAlreadyInUse ∨
      ∃ ep', ep.assignDestination cycle node = .ok ep' ∧ ¬ep'.Safe := by
  obtain ⟨i, i', j, hne, huses, huses', hindex, hrow⟩ := hwraps
  obtain ⟨hdest, htrigger, hopcode, hij, pIndex, hname, hpipe⟩ := huses
  obtain ⟨-, -, -, hij', p, hp, hpipe'⟩ := huses'
  obtain rfl : pIndex = p := Option.some.inj (hname.symm.trans hp)
  rw [assignDestination_eq hdest htrigger hopcode hname]
  cases hreserve : ep.positions.foldlM (ep.reserveStep cycle pIndex node) ep.fuExecutionPipeline with
  | error e =>
    rw [reserve_error hinv.sized hreserve]
    exact .inl rfl
  | ok table =>
    refine .inr ⟨ep.withTrigger cycle node table, rfl, fun hsafe => ?_⟩
    have htwice := reserve_twice hinv.sized hreserve (p := (i, j)) (q := (i', j)) hij hij'
      (fun h => hne (congrArg Prod.fst h)) hpipe hpipe' (Prod.ext hindex rfl)
      (slot_of_length_le (by rw [hrow]; exact Nat.zero_le _))
    obtain ⟨a, ha, hexcl⟩ := hsafe (ep.index (cycle + i)) j node (by
      simp only [withTrigger]
      rw [htwice])
    simp only [withTrigger] at ha
    rw [htwice] at ha
    cases ha
    exact not_mutuallyExclusive_self node hexcl

end assign

/-- Moves that are no triggers are only recorded. -/
theorem inv_operand {ep ep' : ExecutionPipelineResource} (hinv : Inv ep) {cycle : Nat} {node : MoveNode}
    (hnot : node ∉ ep.assignedDestinationNodes.map Prod.snd) (htrigger : node.isTriggering = false)
    (h : ep.assignDestination cycle node = .ok ep') : Inv ep' := by
  unfold assignDestination at h
  simp only [htrigger, Bool.false_eq_true, if_false] at h
  split at h
  · cases h
    exact hinv
  cases h
  have hnone (i j : Nat) : ¬ep.Uses node i j := by
    rintro ⟨-, htrue, -⟩
    rw [htrigger] at htrue
    cases htrue
  refine ⟨hinv.sized, ?_, ?_, ?_, fun r j m => ?_, hinv.safe, ?_⟩
  case refine_1 =>
    simp only [List.map_append, List.map_cons, List.map_nil]
    exact List.nodup_append.2 ⟨hinv.distinct, List.nodup_singleton _, fun a ha b hb hab =>
      hnot (List.mem_singleton.1 hb ▸ hab ▸ ha)⟩
  case refine_2 =>
    intro entry hentry htrig
    cases List.mem_append.1 hentry with
    | inl h => exact hinv.fits entry h htrig
    | inr h =>
      rw [List.mem_singleton.1 h, htrigger] at htrig
      cases htrig
  case refine_3 =>
    intro entry hentry htrig
    cases List.mem_append.1 hentry with
    | inl h => exact hinv.rows entry h htrig
    | inr h =>
      rw [List.mem_singleton.1 h, htrigger] at htrig
      cases htrig
  case refine_4 =>
    refine (hinv.held r j m).trans (Iff.trans ?_ (holds_withTrigger ep.fuExecutionPipeline m r j).symm)
    refine ⟨.inl, fun h => h.resolve_right ?_⟩
    rintro ⟨-, i, huses, -⟩
    exact hnone i j huses
  case refine_5 =>
    intro entry hentry
    cases List.mem_append.1 hentry with
    | inl h => exact hinv.once entry h
    | inr h =>
      rw [List.mem_singleton.1 h]
      exact fun i i' j huses => absurd huses (hnone i j)

/-! ## Unassignments -/

/-- The unit without a node. -/
def withoutNode (ep : ExecutionPipelineResource) (node : MoveNode) (table : ResourceReservationTable) :
    ExecutionPipelineResource :=
  { ep with
    assignedDestinationNodes := ep.assignedDestinationNodes.filter fun entry => entry.2 ≠ node
    fuExecutionPipeline := table }

theorem mem_withoutNode {ep : ExecutionPipelineResource} {node : MoveNode} {table : ResourceReservationTable}
    {entry : Nat × MoveNode} : entry ∈ (ep.withoutNode node table).assignedDestinationNodes ↔
      entry ∈ ep.assignedDestinationNodes ∧ entry.2 ≠ node := by
  simp only [withoutNode, List.mem_filter, decide_eq_true_eq]

theorem holds_withoutNode {ep : ExecutionPipelineResource} {node : MoveNode} {table : ResourceReservationTable}
    (m : MoveNode) (r j : Nat) : (ep.withoutNode node table).Holds m r j ↔ ep.Holds m r j ∧ m ≠ node := by
  constructor
  · rintro ⟨c, i, hmem, huses, hindex⟩
    obtain ⟨hmem, hne⟩ := mem_withoutNode.1 hmem
    exact ⟨⟨c, i, hmem, huses, hindex⟩, hne⟩
  · rintro ⟨⟨c, i, hmem, huses, hindex⟩, hne⟩
    exact ⟨c, i, mem_withoutNode.2 ⟨hmem, hne⟩, huses, hindex⟩

/-- The slots without a node are those of the unit without it. -/
theorem inv_withoutNode {ep : ExecutionPipelineResource} (hinv : Inv ep) {node : MoveNode} {table : ResourceReservationTable}
    (hlen : ∀ r, (table.row r).length = (ep.fuExecutionPipeline.row r).length)
    (hslot : ∀ r j, table.slot r j = (ep.fuExecutionPipeline.slot r j).without node) :
    Inv (ep.withoutNode node table) where
  sized r := by
    refine (hinv.sized r).imp (fun hnil => ?_) fun hn => (hlen r).trans hn
    exact List.length_eq_zero_iff.1 ((hlen r).trans (by rw [hnil]; rfl))
  distinct := by
    simp only [withoutNode]
    exact hinv.distinct.sublist (List.filter_sublist.map Prod.snd)
  fits entry hentry := hinv.fits entry (mem_withoutNode.1 hentry).1
  rows entry hentry htrigger p hp hnil := by
    have hold := hlen (ep.index (entry.1 + p.1))
    rw [show table.row (ep.index (entry.1 + p.1)) = [] from hnil] at hold
    exact hinv.rows entry (mem_withoutNode.1 hentry).1 htrigger p hp (List.length_eq_zero_iff.1 hold.symm)
  held r j m := by
    rw [holds_withoutNode, ← hinv.held r j m, ← has_without (hinv.safe r j)]
    simp only [withoutNode, hslot]
  safe r j := by
    simp only [withoutNode, hslot]
    exact safe_without (hinv.safe r j)
  once entry hentry := hinv.once entry (mem_withoutNode.1 hentry).1

/-- For an assigned trigger an unassignment is a release. -/
theorem unassignDestination_eq {ep ep' : ExecutionPipelineResource} {cycle : Nat} {node : MoveNode}
    (hdest : node.isDestinationOperation = true) (hmem : node ∈ ep.assignedDestinationNodes.map Prod.snd)
    (htrigger : node.isTriggering = true) (h : ep.unassignDestination cycle node = .ok ep') :
    ∃ pIndex table, ep.positions.foldlM (ep.releaseStep cycle pIndex node) ep.fuExecutionPipeline = .ok table ∧
      ep' = ep.withoutNode node table := by
  unfold unassignDestination at h
  simp only [hdest, htrigger, Bool.not_true, Bool.false_eq_true, if_false, if_neg (not_not.2 hmem)] at h
  cases hname : ep.resources.operationIndex (triggerName node) with
  | none =>
    rw [hname] at h
    cases h
  | some pIndex =>
    rw [hname] at h
    dsimp only at h
    split at h
    · cases h
    change (do
      let table ← ep.positions.foldlM (ep.releaseStep cycle pIndex node) ep.fuExecutionPipeline
      return ep.withoutNode node table) = Except.ok ep' at h
    cases hrelease : ep.positions.foldlM (ep.releaseStep cycle pIndex node) ep.fuExecutionPipeline with
    | error e =>
      rw [hrelease] at h
      cases h
    | ok table =>
      rw [hrelease] at h
      cases h
      exact ⟨pIndex, table, hrelease, rfl⟩

theorem inv_unassign {ep ep' : ExecutionPipelineResource} (hinv : Inv ep) {cycle : Nat} {node : MoveNode}
    (hassigned : (cycle, node) ∈ ep.assignedDestinationNodes ∨ node ∉ ep.assignedDestinationNodes.map Prod.snd)
    (h : ep.unassignDestination cycle node = .ok ep') : Inv ep' := by
  by_cases hdest : node.isDestinationOperation = true
  swap
  · rw [unassignDestination, if_pos (by simpa using hdest)] at h
    cases h
    exact hinv
  by_cases hmem : node ∈ ep.assignedDestinationNodes.map Prod.snd
  swap
  · rw [unassignDestination, if_neg (by simpa using hdest), if_pos hmem] at h
    cases h
    exact hinv
  have hentry := hassigned.resolve_right fun hnot => hnot hmem
  have hcycle {c : Nat} (hc : (c, node) ∈ ep.assignedDestinationNodes) : c = cycle :=
    congrArg Prod.fst (List.inj_on_of_nodup_map hinv.distinct hc hentry rfl)
  by_cases htrigger : node.isTriggering = true
  · obtain ⟨pIndex, table, hrelease, rfl⟩ := unassignDestination_eq hdest hmem htrigger h
    have hhas (r j : Nat) (hnode : (ep.fuExecutionPipeline.slot r j).Has node) :
        ∃ p ∈ ep.positions, ep.place cycle p = (r, j) := by
      obtain ⟨c, i, hc, huses, hindex⟩ := (hinv.held r j node).1 hnode
      rw [hcycle hc] at hindex
      exact ⟨(i, j), huses.2.2.2.1, Prod.ext hindex rfl⟩
    obtain ⟨hlen, hslot⟩ := release_spec hinv.sized (hinv.rows _ hentry htrigger) hinv.safe hhas hrelease
    exact inv_withoutNode hinv hlen hslot
  · unfold unassignDestination at h
    simp only [hdest, htrigger, Bool.not_true, Bool.not_false, Bool.false_eq_true, if_false, if_true,
      if_neg (not_not.2 hmem)] at h
    obtain rfl : ep.withoutNode node ep.fuExecutionPipeline = ep' := Except.ok.inj h
    refine inv_withoutNode hinv (fun r => rfl) fun r j => (without_of_not_has ?_).symm
    rw [hinv.held]
    rintro ⟨c, i, -, huses, -⟩
    exact htrigger huses.2.1

/-! ## Runs -/

/-- The steps of a run. Triggers are assigned after a query that allows them,
unless they wrap unseen; nodes are assigned once at a time and unassigned in
their cycle. -/
inductive Step (ep : ExecutionPipelineResource) : ExecutionPipelineResource → Prop
  | query (scheduled : MoveNode → Option Nat) (cycle : Nat) (node : MoveNode) (b : Bool)
    (ep' : ExecutionPipelineResource) : ep.resourcesAllowTrigger scheduled cycle node = .ok (b, ep') → Step ep ep'
  | trigger (scheduled : MoveNode → Option Nat) (cycle : Nat) (node : MoveNode)
    (ep₁ ep' : ExecutionPipelineResource) : node.isTriggering = true →
    node ∉ ep.assignedDestinationNodes.map Prod.snd → ep.Fits cycle →
    ep.resourcesAllowTrigger scheduled cycle node = .ok (true, ep₁) → ¬ep.WrapsUnseen cycle node →
    ep₁.assignDestination cycle node = .ok ep' → Step ep ep'
  | operand (cycle : Nat) (node : MoveNode) (ep' : ExecutionPipelineResource) : node.isTriggering = false →
    node ∉ ep.assignedDestinationNodes.map Prod.snd → ep.assignDestination cycle node = .ok ep' → Step ep ep'
  | unassign (cycle : Nat) (node : MoveNode) (ep' : ExecutionPipelineResource) :
    (cycle, node) ∈ ep.assignedDestinationNodes ∨ node ∉ ep.assignedDestinationNodes.map Prod.snd →
    ep.unassignDestination cycle node = .ok ep' → Step ep ep'
  | source (nodes : List (Nat × MoveNode)) : Step ep { ep with assignedSourceNodes := nodes }

inductive Reachable (resources : ResourceTable) (initiationInterval maxCycle : Nat)
    (ddg : Option DataDependenceGraph) : ExecutionPipelineResource → Prop
  | start : Reachable resources initiationInterval maxCycle ddg (create resources initiationInterval maxCycle ddg)
  | next {ep ep' : ExecutionPipelineResource} : Reachable resources initiationInterval maxCycle ddg ep → Step ep ep' →
    Reachable resources initiationInterval maxCycle ddg ep'

theorem step_inv {ep ep' : ExecutionPipelineResource} (hinv : Inv ep) (h : Step ep ep') : Inv ep' := by
  cases h with
  | query scheduled cycle node b _ h =>
    obtain ⟨b', table, hquery, hsame, -⟩ := query_spec hinv scheduled cycle node
    rw [h] at hquery
    cases hquery
    exact inv_same hinv hsame
  | trigger scheduled cycle node ep₁ _ htrigger hnot hfits hquery hwraps hassign =>
    obtain ⟨b, table, heq, hsame, hadmits⟩ := query_spec hinv scheduled cycle node
    rw [hquery] at heq
    cases heq
    have hinv₁ := inv_same hinv hsame
    by_cases hdest : node.isDestinationOperation = true
    swap
    · rw [assignDestination, if_pos (by simpa using hdest)] at hassign
      cases hassign
      exact hinv₁
    by_cases hopcode : node.isOpcodeSetting = true
    swap
    · rw [assignDestination, if_neg (by simpa using hdest)] at hassign
      simp [htrigger, hopcode] at hassign
    obtain ⟨ep₂, hok, hinv₂⟩ := inv_assign hinv₁ hnot hfits ((admits_same hsame).2 (hadmits rfl hfits))
      (fun h => hwraps ((wrapsUnseen_same hsame).1 h)) hdest htrigger hopcode
    rw [hassign] at hok
    cases hok
    exact hinv₂
  | operand cycle node _ htrigger hnot hassign => exact inv_operand hinv hnot htrigger hassign
  | unassign cycle node _ hassigned hunassign => exact inv_unassign hinv hassigned hunassign
  | source nodes => exact ⟨hinv.sized, hinv.distinct, hinv.fits, hinv.rows, hinv.held, hinv.safe, hinv.once⟩

theorem reachable_inv {resources : ResourceTable} {initiationInterval maxCycle : Nat}
    {ddg : Option DataDependenceGraph} {ep : ExecutionPipelineResource}
    (h : Reachable resources initiationInterval maxCycle ddg ep) : Inv ep := by
  induction h with
  | start => exact inv_create resources initiationInterval maxCycle ddg
  | next _ step ih => exact step_inv ih step

/-- In every run in which no assigned trigger wraps unseen, slots are held by the
triggers that use them, once each, and shared by two at most, whose guards
exclude each other. The query leaves the reservations as they are, and the
trigger that it allows can be assigned so exactly if it does not wrap unseen. -/
theorem reservations_safe {resources : ResourceTable} {initiationInterval maxCycle : Nat}
    {ddg : Option DataDependenceGraph} {ep : ExecutionPipelineResource}
    (h : Reachable resources initiationInterval maxCycle ddg ep) :
    ep.Safe ∧ (∀ r j node, (ep.fuExecutionPipeline.slot r j).Has node ↔ ep.Holds node r j) ∧
      (∀ entry ∈ ep.assignedDestinationNodes, ep.Once entry.1 entry.2) ∧
      ∀ scheduled cycle node, ∃ b table,
        ep.resourcesAllowTrigger scheduled cycle node = .ok (b, { ep with fuExecutionPipeline := table }) ∧
        Same ep.fuExecutionPipeline table ∧
        (b = true → node.isTriggering = true → node ∉ ep.assignedDestinationNodes.map Prod.snd → ep.Fits cycle →
          ((({ ep with fuExecutionPipeline := table } : ExecutionPipelineResource).assignDestination cycle node ≠
              .error .resourceAlreadyInUse ∧
            ∀ ep', ({ ep with fuExecutionPipeline := table } : ExecutionPipelineResource).assignDestination cycle node =
              .ok ep' → ep'.Safe) ↔ ¬ep.WrapsUnseen cycle node)) := by
  have hinv := reachable_inv h
  refine ⟨hinv.safe, hinv.held, hinv.once, fun scheduled cycle node => ?_⟩
  obtain ⟨b, table, hquery, hsame, hadmits⟩ := query_spec hinv scheduled cycle node
  refine ⟨b, table, hquery, hsame, fun hb htrigger hnot hfits => ?_⟩
  have hinv₁ := inv_same hinv hsame
  rw [← wrapsUnseen_same hsame]
  constructor
  · rintro ⟨hassert, hsafe⟩ hwraps
    rcases assign_wraps hinv₁ hwraps with herror | ⟨ep', hok, hunsafe⟩
    · exact hassert herror
    · exact hunsafe (hsafe ep' hok)
  · intro hwraps
    by_cases hdest : node.isDestinationOperation = true
    swap
    · rw [assignDestination, if_pos (by simpa using hdest)]
      refine ⟨by simp, fun ep' hok => ?_⟩
      cases hok
      exact hinv₁.safe
    by_cases hopcode : node.isOpcodeSetting = true
    swap
    · rw [assignDestination, if_neg (by simpa using hdest)]
      simp [htrigger, hopcode]
    obtain ⟨ep', hok, hinv'⟩ := inv_assign hinv₁ hnot hfits ((admits_same hsame).2 (hadmits hb hfits)) hwraps hdest
      htrigger hopcode
    rw [hok]
    refine ⟨by simp, fun ep'' heq => ?_⟩
    cases heq
    exact hinv'.safe

/-- A unit with one operation that uses its one resource in three cycles. -/
def divider : ResourceTable := ⟨1, 3, [("DIV", 0)], [[[true], [true], [true]]]⟩

def division : MoveNode := ⟨0, true, none, true, true, true, "DIV", "DIV"⟩

theorem divider_runs : ∃ ep, Reachable divider 4 intMax none ep ∧
    ep.assignedDestinationNodes = [(2, division)] ∧ ep.Safe := by
  have hwraps : ¬(create divider 4 intMax none).WrapsUnseen 2 division := by
    rintro ⟨i, i', j, hne, huses, huses', hindex, -⟩
    have hi := (mem_positions.1 huses.2.2.2.1).1
    have hi' := (mem_positions.1 huses'.2.2.2.1).1
    change i < 3 at hi
    change i' < 3 at hi'
    change (2 + i) % 4 = (2 + i') % 4 at hindex
    omega
  have hfits : (create divider 4 intMax none).Fits 2 := by simp [Fits, create, intMax]
  have hreach := Reachable.start.next
    (.trigger (fun _ => none) 2 division _ _ rfl (by simp [create]) hfits rfl hwraps rfl)
  exact ⟨_, hreach, rfl, (reservations_safe hreach).1⟩

/-- An operation of three cycles is allowed at an interval of one, and its
assignment reaches the assertion. -/
theorem divider_wraps : ∃ ep, (create divider 1 intMax none).resourcesAllowTrigger (fun _ => none) 0 division =
      .ok (true, ep) ∧
    ep.assignDestination 0 division = .error .resourceAlreadyInUse :=
  ⟨_, rfl, rfl⟩

end Tce.ExecutionPipeline.ExecutionPipelineResource
