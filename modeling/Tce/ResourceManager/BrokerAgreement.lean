import Tce.ResourceManager.AssignmentPlan

/-!
# Agreement of the queries

When the test of one resource agrees with the search for all, and what the fast
path of an assignment assigns then.
-/

namespace Tce.ResourceManager

/-! ## Buses -/

namespace BusBroker
variable {broker : BusBroker} {resourceRecord : BusRecord}

/-- The test of the bus agrees with the search. -/
def Agrees (broker : BusBroker) (resourceRecord : BusRecord) (bus : Bus) (cycle : Nat) (move : Move) : Prop :=
  broker.isAvailable resourceRecord bus cycle move =
    (broker.allAvailableResources resourceRecord cycle move).map fun buses => decide (bus ∈ buses)

/-- The move has no other bus of the machine already. -/
def NotElsewhere (broker : BusBroker) (bus : Bus) (move : Move) : Prop :=
  ∀ preassigned ∈ broker.buses, move.bus = some preassigned → preassigned = bus

/-- If the sockets are connected and the bus has the guard: a bus for an immediate
can be assigned, and every bus that would be assigned is not that of another bus. -/
def Clear (broker : BusBroker) (resourceRecord : BusRecord) (bus : Bus) (cycle : Nat) (move : Move) : Prop :=
  ∀ iPSocket, inputPSocket move = .ok iPSocket → guardFound move bus = true →
    match move.source with
    | .immediate immediate => ∀ transports, broker.canTransportImmediate immediate bus = .ok transports →
        broker.canAssign resourceRecord (broker.instructionIndex cycle) move (immResource bus) iPSocket bus = true ∧
          (transports = true → broker.NotElsewhere bus move)
    | .port source => ∀ oPSocket, outputPSocket source = .ok oPSocket →
        broker.canAssign resourceRecord (broker.instructionIndex cycle) move oPSocket iPSocket bus = true →
          broker.NotElsewhere bus move

theorem candidates_eq {test : Bus → Except BrokerError Bool} {accepted : Bus → Bool}
    (h : ∀ bus, test bus = .ok (accepted bus)) (buses : List Bus) :
    candidates test buses = .ok (buses.filter accepted) := by
  induction buses with
  | nil => rfl
  | cons bus buses ih =>
    rw [candidates, h bus, ih, List.filter_cons]
    rfl

theorem candidates_error {test : Bus → Except BrokerError Bool} {e : BrokerError} (h : ∀ bus, test bus = .error e)
    {buses : List Bus} (hne : buses ≠ []) : candidates test buses = .error e := by
  cases buses with
  | nil => exact absurd rfl hne
  | cons bus buses =>
    rw [candidates, h bus]
    rfl

/-- Whether the width of an immediate is known does not depend on the bus. -/
theorem canTransportImmediate_cases (broker : BusBroker) (immediate : TerminalImmediate) :
    (∃ transports : Bus → Bool, ∀ bus, broker.canTransportImmediate immediate bus = .ok (transports bus)) ∨
      ∀ bus, broker.canTransportImmediate immediate bus = .error .aborted := by
  unfold canTransportImmediate requiredImmediateWidth
  cases immediate with
  | value value => exact .inl ⟨_, fun bus => rfl⟩
  | instructionAddress => exact .inl ⟨_, fun bus => rfl⟩
  | basicBlockReference => exact .inl ⟨_, fun bus => rfl⟩
  | codeSymbolReference symbol =>
    dsimp only
    split
    · cases broker.spaces.dataEnd with
      | none => exact .inr fun bus => rfl
      | some dataEnd => exact .inl ⟨_, fun bus => rfl⟩
    · exact .inl ⟨_, fun bus => rfl⟩

/-- `preassignedBus == NULL || busRes == preassignedBus`. -/
theorem preassigned_iff (bus : Bus) (move : Move) :
    ((move.bus.bind broker.resourceOf).isNone || some bus == move.bus.bind broker.resourceOf) = true ↔
      broker.NotElsewhere bus move := by
  unfold NotElsewhere
  cases move.bus with
  | none => simp
  | some preassigned =>
    rw [Option.bind_some, resourceOf]
    split
    next hmem =>
      rw [Bool.or_eq_true, beq_iff_eq]
      constructor
      · rintro (hnone | hsome) bus' - hbus'
        · cases hnone
        · rw [← Option.some.inj hbus', Option.some.inj hsome]
      · intro h
        exact .inr (congrArg some (h preassigned hmem rfl).symm)
    next hmem =>
      refine ⟨fun _ bus' hbus' hsome => ?_, fun _ => rfl⟩
      rw [Option.some.inj hsome] at hmem
      exact absurd hbus' hmem

/-- The bus is among those that are accepted and have the guard. -/
theorem mem_candidates {accepted : Bus → Bool} {bus : Bus} (hbus : bus ∈ broker.buses) (move : Move) :
    decide (bus ∈ (broker.buses.filter accepted).filter (guardFound move)) = (accepted bus && guardFound move bus) := by
  simp [List.mem_filter, hbus, Bool.and_comm]

section queries
variable {move : Move} {iPSocket oPSocket : PSocketResource} {immediate : TerminalImmediate} {source : PortSource}
  {transports : Bus → Bool} (cycle : Nat)

theorem isAvailable_immediate (hinput : inputPSocket move = .ok iPSocket) (hsource : move.source = .immediate immediate)
    {bus : Bus} (htransports : broker.canTransportImmediate immediate bus = .ok (transports bus)) :
    broker.isAvailable resourceRecord bus cycle move = .ok (if !transports bus && broker.canAssign resourceRecord
      (broker.instructionIndex cycle) move (immResource bus) iPSocket bus then false else guardFound move bus) := by
  unfold isAvailable
  simp only [hinput, hsource, htransports, bind, Except.bind, pure, Except.pure]
  split <;> rfl

theorem allAvailableResources_immediate (hinput : inputPSocket move = .ok iPSocket)
    (hsource : move.source = .immediate immediate)
    (htransports : ∀ bus, broker.canTransportImmediate immediate bus = .ok (transports bus)) :
    broker.allAvailableResources resourceRecord cycle move = .ok ((broker.buses.filter fun bus =>
      transports bus &&
        broker.canAssign resourceRecord (broker.instructionIndex cycle) move (immResource bus) iPSocket bus &&
        ((move.bus.bind broker.resourceOf).isNone || some bus == move.bus.bind broker.resourceOf)).filter
      (guardFound move)) := by
  unfold allAvailableResources
  simp only [hinput, hsource, htransports, bind, Except.bind, pure, Except.pure]
  rw [candidates_eq fun bus => rfl]

theorem isAvailable_port (hinput : inputPSocket move = .ok iPSocket) (hsource : move.source = .port source)
    (houtput : outputPSocket source = .ok oPSocket) (bus : Bus) :
    broker.isAvailable resourceRecord bus cycle move = .ok (if !broker.canAssign resourceRecord
      (broker.instructionIndex cycle) move oPSocket iPSocket bus then false else guardFound move bus) := by
  unfold isAvailable
  simp only [hinput, hsource, houtput, bind, Except.bind, pure, Except.pure]
  split <;> rfl

theorem allAvailableResources_port (hinput : inputPSocket move = .ok iPSocket) (hsource : move.source = .port source)
    (houtput : outputPSocket source = .ok oPSocket) :
    broker.allAvailableResources resourceRecord cycle move = .ok ((broker.buses.filter fun bus =>
      broker.canAssign resourceRecord (broker.instructionIndex cycle) move oPSocket iPSocket bus &&
        ((move.bus.bind broker.resourceOf).isNone || some bus == move.bus.bind broker.resourceOf)).filter
      (guardFound move)) := by
  unfold allAvailableResources
  simp only [hinput, hsource, houtput, bind, Except.bind, pure, Except.pure]
  rw [candidates_eq fun bus => rfl]

end queries

/-- **The test of a bus agrees with the search** exactly if the choice is clear. -/
theorem agrees_iff {bus : Bus} (hbus : bus ∈ broker.buses) (cycle : Nat) (move : Move) :
    broker.Agrees resourceRecord bus cycle move ↔ broker.Clear resourceRecord bus cycle move := by
  have hne := List.ne_nil_of_mem hbus
  have hpreassigned := broker.preassigned_iff bus move
  unfold Agrees Clear
  cases hinput : inputPSocket move with
  | error e =>
    simp [isAvailable, allAvailableResources, hinput, bind, Except.bind, Except.map]
  | ok iPSocket =>
    cases hsource : move.source with
    | immediate immediate =>
      cases broker.canTransportImmediate_cases immediate with
      | inl hwidth =>
        obtain ⟨transports, htransports⟩ := hwidth
        rw [isAvailable_immediate cycle hinput hsource (htransports bus),
          allAvailableResources_immediate cycle hinput hsource htransports, Except.map, mem_candidates hbus]
        simp only [htransports, Except.ok.injEq, forall_eq', ← hpreassigned]
        generalize broker.canAssign resourceRecord (broker.instructionIndex cycle) move (immResource bus) iPSocket bus =
          free
        generalize ((move.bus.bind broker.resourceOf).isNone || some bus == move.bus.bind broker.resourceOf) = here
        generalize guardFound move bus = found
        generalize transports bus = fits
        revert free here found fits
        decide
      | inr hunknown =>
        simp [isAvailable, allAvailableResources, hinput, hsource, hunknown, bind, Except.bind, Except.map,
          candidates_error (fun bus => rfl) hne]
    | port source =>
      cases houtput : outputPSocket source with
      | error e =>
        simp [isAvailable, allAvailableResources, hinput, hsource, houtput, bind, Except.bind, Except.map]
      | ok oPSocket =>
        rw [isAvailable_port cycle hinput hsource houtput,
          allAvailableResources_port cycle hinput hsource houtput, Except.map, mem_candidates hbus]
        simp only [houtput, Except.ok.injEq, forall_eq', ← hpreassigned]
        generalize broker.canAssign resourceRecord (broker.instructionIndex cycle) move oPSocket iPSocket bus = free
        generalize ((move.bus.bind broker.resourceOf).isNone || some bus == move.bus.bind broker.resourceOf) = here
        generalize guardFound move bus = found
        revert free here found
        decide

/-- What the broker offers in a plan is what the search finds. -/
theorem inPlan_offers {O Q : Type} {cycle : Nat} {s : PlanState O} {bus : Bus} :
    (broker.inPlan (Q := Q) cycle).Offers (.inl bus) s ↔
      ∃ buses, broker.allAvailableResources s.buses cycle s.move = .ok buses ∧ bus ∈ buses := by
  have hall : (broker.inPlan (Q := Q) cycle).allAvailableResources s =
    (broker.allAvailableResources s.buses cycle s.move).map (·.map .inl) := rfl
  rw [ResourceBroker.Offers, hall]
  cases broker.allAvailableResources s.buses cycle s.move with
  | error e => simp [Except.map]
  | ok buses => simp [Except.map]

/-- The broker of buses has no other resources. -/
theorem inPlan_not_available {O Q : Type} {cycle : Nat} {s : PlanState O} {other : Q} :
    (broker.inPlan cycle).isAvailable (.inr other) s ≠ .ok true := by
  dsimp only [inPlan]
  cases inputPSocket s.move with
  | error e => exact fun h => nomatch h
  | ok iPSocket =>
    cases s.move.source with
    | immediate immediate => exact fun h => nomatch h
    | port source =>
      dsimp only
      cases outputPSocket source with
      | error e => exact fun h => nomatch h
      | ok oPSocket => exact fun h => nomatch h

theorem inPlan_offers_iff {O Q : Type} {cycle : Nat} {s : PlanState O} {bus : Bus} (hbus : bus ∈ broker.buses)
    (havailable : (broker.inPlan (Q := Q) cycle).isAvailable (.inl bus) s = .ok true) :
    (broker.inPlan (Q := Q) cycle).Offers (.inl bus) s ↔ broker.Clear s.buses bus cycle s.move := by
  rw [← agrees_iff hbus, inPlan_offers, Agrees]
  have htest : broker.isAvailable s.buses bus cycle s.move = .ok true := havailable
  rw [htest]
  cases broker.allAvailableResources s.buses cycle s.move with
  | error e => simp [Except.map]
  | ok buses => simp [Except.map]

end BusBroker

/-! ## Output sockets -/

namespace OutputPSocketBroker

/-- The sockets of ports that are connected to different ones are inserted in their order. -/
theorem portSockets_eq {canAssign : Socket → Bool} {ports : List Port} {resourceSet : List Socket}
    (hnodup : (resourceSet ++ ports.filterMap (·.outputSocket)).Nodup) :
    ports.foldlM (insertPort canAssign) resourceSet =
      .ok (resourceSet ++ (ports.filterMap (·.outputSocket)).filter canAssign) := by
  induction ports generalizing resourceSet with
  | nil => simp [pure, Except.pure]
  | cons port ports ih =>
    rw [List.filterMap_cons] at hnodup
    rw [List.foldlM_cons, List.filterMap_cons, insertPort]
    cases hsocket : port.outputSocket with
    | none =>
      rw [hsocket] at hnodup
      exact ih hnodup
    | some socket =>
      rw [hsocket] at hnodup
      dsimp only at hnodup ⊢
      have happend : (resourceSet ++ [socket] ++ ports.filterMap (·.outputSocket)).Nodup := by
        rw [List.append_assoc]
        exact hnodup
      rw [List.filter_cons]
      by_cases hcan : canAssign socket = true
      · have hnew : socket ∉ resourceSet := fun hmem =>
          (List.nodup_append.1 hnodup).2.2 socket hmem socket List.mem_cons_self rfl
        rw [if_pos hcan, if_pos hcan, insert, if_neg hnew]
        refine (ih happend).trans ?_
        rw [List.append_assoc, List.singleton_append]
      · rw [if_neg hcan, if_neg hcan]
        exact ih (hnodup.sublist ((List.sublist_cons_self _ _).append_left resourceSet))

theorem anyPortSocket_eq (canAssign : Socket → Bool) (ports : List Port) :
    anyPortSocket canAssign ports = (ports.filterMap (·.outputSocket)).any canAssign := by
  induction ports with
  | nil => rfl
  | cons port ports ih =>
    rw [anyPortSocket, List.filterMap_cons]
    cases port.outputSocket with
    | none => exact ih
    | some socket =>
      dsimp only
      rw [List.any_cons, ih]
      cases canAssign socket <;> rfl

theorem anyPortSocket_agrees (canAssign : Socket → Bool) (registerFile : RegisterFile) :
    .ok (anyPortSocket canAssign registerFile.ports) =
      (portSockets canAssign registerFile.ports).map fun sockets => !sockets.isEmpty := by
  rw [portSockets, portSockets_eq registerFile.distinct, anyPortSocket_eq, List.nil_append, Except.map]
  congr 1
  rw [Bool.eq_iff_iff, List.any_eq_true, Bool.not_eq_true', List.isEmpty_eq_false_iff_exists_mem]
  simp only [List.mem_filter]

/-- **Some output socket is available exactly when the search finds one.** -/
theorem isAnyResourceAvailable_eq (broker : OutputPSocketBroker) (resources : Socket → OutputPSocketResource)
    (cycle : Nat) (move : Move) :
    broker.isAnyResourceAvailable resources cycle move =
      (broker.allAvailableResources resources cycle move).map fun sockets => !sockets.isEmpty := by
  unfold isAnyResourceAvailable allAvailableResources
  dsimp only
  split
  · rfl
  · cases move.source with
    | immediate immediate => rfl
    | port source =>
      cases source with
      | FUPort port =>
        dsimp only
        cases port.outputSocket with
        | none => rfl
        | some socket =>
          dsimp only
          split <;> rfl
      | GPR registerFile port index => exact anyPortSocket_agrees _ registerFile
      | immediateRegister immediateUnit port index => exact anyPortSocket_agrees _ immediateUnit

end OutputPSocketBroker

/-! ## Plans -/

section plans
variable {N O Q : Type} [DecidableEq N] [DecidableEq Q]

/-- In the plan the broker of buses is the one that does not inherit its test,
and the buses of the last successful test are buses of the broker. -/
structure PlanOf (broker : BusBroker) (cycle : Nat) (plan : AssignmentPlan N (PlanState O) (Bus ⊕ Q)) : Prop where
  brokers : ∀ k, plan.broker k = broker.inPlan cycle ∨ (plan.broker k).Inherits
  buses : ∀ k bus, (k, .inl bus) ∈ plan.lastTestedWorkingAssignment → bus ∈ broker.buses

variable {broker : BusBroker} {cycle : Nat} {plan : AssignmentPlan N (PlanState O) (Bus ⊕ Q)}
  {setCycle : Nat → PlanState O → PlanState O} {unsetCycle : PlanState O → PlanState O} {node : N} {s : PlanState O}

/-- The fast path assigns what the search offers, if and only if the choice is clear whenever it assigns a bus. -/
theorem assignments_offered_iff (hplan : PlanOf broker cycle plan) :
    (∀ a ∈ (plan.tryCachedAssignment setCycle unsetCycle node cycle s).assignments,
      (plan.broker a.broker).Offers a.resource a.state) ↔
    ∀ a ∈ (plan.tryCachedAssignment setCycle unsetCycle node cycle s).assignments,
      plan.broker a.broker = broker.inPlan cycle → ∀ bus, a.resource = .inl bus →
        broker.Clear a.state.buses bus cycle a.state.move := by
  constructor
  · intro h a ha hbroker bus hresource
    obtain ⟨hmem, havailable⟩ := plan.mem_tryCachedAssignment ha
    have hoffers := h a ha
    have hbus := hplan.buses a.broker bus (hresource ▸ hmem)
    rw [hbroker, hresource] at hoffers havailable
    exact (BusBroker.inPlan_offers_iff hbus havailable).1 hoffers
  · intro h a ha
    obtain ⟨hmem, havailable⟩ := plan.mem_tryCachedAssignment ha
    cases hplan.brokers a.broker with
    | inl hbroker =>
      cases hresource : a.resource with
      | inl bus =>
        have hbus := hplan.buses a.broker bus (hresource ▸ hmem)
        rw [hbroker, hresource] at havailable
        rw [hbroker]
        exact (BusBroker.inPlan_offers_iff hbus havailable).2 (h a ha hbroker bus hresource)
      | inr other =>
        rw [hbroker, hresource] at havailable
        exact absurd havailable BusBroker.inPlan_not_available
    | inr hinherits => exact hinherits.offers havailable

/-! ## All queries -/

/-- The test of the bus agrees with the search, some output socket is available
exactly if the search finds one, and the fast path assigns what the search offers. -/
def QueriesAgree (broker : BusBroker) (outputBroker : OutputPSocketBroker)
    (plan : AssignmentPlan N (PlanState O) (Bus ⊕ Q)) (setCycle : Nat → PlanState O → PlanState O)
    (unsetCycle : PlanState O → PlanState O) (node : N) (bus : Bus) (cycle : Nat)
    (sockets : Socket → OutputPSocketResource) (s : PlanState O) : Prop :=
  broker.Agrees s.buses bus cycle s.move ∧
    outputBroker.isAnyResourceAvailable sockets cycle s.move =
      (outputBroker.allAvailableResources sockets cycle s.move).map (fun found => !found.isEmpty) ∧
    ∀ a ∈ (plan.tryCachedAssignment setCycle unsetCycle node cycle s).assignments,
      (plan.broker a.broker).Offers a.resource a.state

/-- **The queries agree** exactly if the choice of the bus is clear, and that of each
bus that the fast path assigns. -/
theorem queriesAgree_iff (outputBroker : OutputPSocketBroker) (hplan : PlanOf broker cycle plan) {bus : Bus}
    (hbus : bus ∈ broker.buses) (sockets : Socket → OutputPSocketResource) :
    QueriesAgree broker outputBroker plan setCycle unsetCycle node bus cycle sockets s ↔
      broker.Clear s.buses bus cycle s.move ∧
        ∀ a ∈ (plan.tryCachedAssignment setCycle unsetCycle node cycle s).assignments,
          plan.broker a.broker = broker.inPlan cycle → ∀ assigned, a.resource = .inl assigned →
            broker.Clear a.state.buses assigned cycle a.state.move := by
  rw [QueriesAgree, BusBroker.agrees_iff hbus, assignments_offered_iff hplan]
  exact and_congr_right fun _ =>
    and_iff_right (outputBroker.isAnyResourceAvailable_eq sockets cycle s.move)

end plans

/-! ## One bus -/

section oneBus

/-- A machine with one bus of short immediates of 8 bits, connected to one input. -/
def oneBus : Bus := ⟨"B1", 32, 8, false, [], [⟨"I1", .INPUT⟩]⟩

def oneBusBroker : BusBroker := ⟨[oneBus], List.nodup_singleton _, ⟨0, none⟩, 0⟩

/-- A move of the immediate 1. -/
def immediateMove : Move :=
  ⟨.immediate (.value 1), ⟨"in", .functionUnit "alu", 32, some ⟨"I1", .INPUT⟩, none⟩, none, none, false⟩

/-- The plan after a test of the move in the cycle 0. -/
def oneBusPlan : AssignmentPlan Unit (PlanState Unit) (Bus ⊕ Empty) :=
  ⟨[oneBusBroker.inPlan 0], some (), 0, [(⟨0, Nat.one_pos⟩, .inl oneBus)]⟩

def setCycle (cycle : Nat) (s : PlanState Unit) : PlanState Unit := { s with cycle }

theorem planOf_oneBusPlan : PlanOf oneBusBroker 0 oneBusPlan where
  brokers := fun ⟨0, _⟩ => .inl rfl
  buses := by
    intro k bus hmem
    obtain rfl := Sum.inl.inj (Prod.mk.inj (List.mem_singleton.1 hmem)).2
    exact List.mem_singleton_self _

theorem clear_oneBus : oneBusBroker.Clear (fun _ _ => 0) oneBus 0 immediateMove := by
  intro iPSocket hinput _ transports _
  obtain rfl := Except.ok.inj hinput
  exact ⟨rfl, fun _ _ _ hbus => nomatch hbus⟩

/-- While the bus is free, the queries agree. -/
theorem queriesAgree_oneBus :
    QueriesAgree oneBusBroker ⟨none, 0⟩ oneBusPlan setCycle id () oneBus 0 (fun _ => ⟨fun _ => [], fun _ => none⟩)
      ⟨fun _ _ => 0, false, immediateMove, 0, ()⟩ := by
  refine (queriesAgree_iff ⟨none, 0⟩ planOf_oneBusPlan (List.mem_singleton_self _) _).2 ⟨clear_oneBus, ?_⟩
  intro a ha _ assigned hassigned
  obtain rfl := List.mem_singleton.1 ha
  obtain rfl := Sum.inl.inj hassigned
  exact clear_oneBus

/-- An immediate is said to be available on a bus that is in use. -/
theorem not_queriesAgree_inUse :
    ¬QueriesAgree oneBusBroker ⟨none, 0⟩ oneBusPlan setCycle id () oneBus 0 (fun _ => ⟨fun _ => [], fun _ => none⟩)
      ⟨fun _ _ => 1, false, immediateMove, 0, ()⟩ := by
  rintro ⟨hagrees, -⟩
  have htrue : Except.ok (ε := BrokerError) true = .ok false := hagrees
  cases htrue

end oneBus

end Tce.ResourceManager
