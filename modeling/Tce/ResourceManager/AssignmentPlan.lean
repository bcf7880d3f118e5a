import Tce.ResourceManager.ResourceBrokers

/-!
# Assignment plans

The fast path of an assignment: when the node and the cycle are those of the
last successful test, its resources are assigned again without a search, as
long as each broker says that its resource is available.
-/

namespace Tce.ResourceManager

/-- A broker of resources, over the state of the resources and the move. -/
structure ResourceBroker (S R : Type) where
  isApplicable : S → Bool
  allAvailableResources : S → Except BrokerError (List R)
  isAvailable : R → S → Except BrokerError Bool
  assign : R → S → Except BrokerError S
  unassign : S → Except BrokerError S

namespace ResourceBroker
variable {S R : Type}

/-- A resource that the search can assign in the state. -/
def Offers (broker : ResourceBroker S R) (resource : R) (s : S) : Prop :=
  ∃ resources, broker.allAvailableResources s = .ok resources ∧ resource ∈ resources

/-- The broker has `ResourceBroker::isAvailable`, which looks for the resource among all available ones. -/
def Inherits [DecidableEq R] (broker : ResourceBroker S R) : Prop :=
  ∀ resource s, broker.isAvailable resource s =
    (broker.allAvailableResources s).map fun resources => decide (resource ∈ resources)

theorem Inherits.offers [DecidableEq R] {broker : ResourceBroker S R} (h : broker.Inherits) {resource : R} {s : S}
    (havailable : broker.isAvailable resource s = .ok true) : broker.Offers resource s := by
  rw [h resource s] at havailable
  cases hall : broker.allAvailableResources s with
  | error e =>
    rw [hall] at havailable
    cases havailable
  | ok resources =>
    rw [hall] at havailable
    exact ⟨resources, hall, of_decide_eq_true (Except.ok.inj havailable)⟩

end ResourceBroker

/-- The brokers in their order, and the resources of the last successful test. -/
structure AssignmentPlan (N S R : Type) where
  brokers : List (ResourceBroker S R)
  lastTriedNode : Option N
  lastTriedCycle : Nat
  lastTestedWorkingAssignment : List (Fin brokers.length × R)

/-- An assignment of a resource by a broker, in the state before it. -/
structure Assignment (n : Nat) (S R : Type) where
  broker : Fin n
  resource : R
  state : S

/-- The assignments that were made, and the state with the answer of the attempt. -/
structure Attempt (n : Nat) (S R : Type) where
  assignments : List (Assignment n S R)
  result : Except BrokerError (S × Bool)

namespace AssignmentPlan
variable {N S R : Type} (plan : AssignmentPlan N S R)

def broker (k : Fin plan.brokers.length) : ResourceBroker S R := plan.brokers.get k

/-- The same brokers are applicable for the cached assignment and for the node. -/
def sameBrokers (s : S) : List (Fin plan.brokers.length) → List (Fin plan.brokers.length × R) → Bool
  | [], _ => true
  | k :: brokers, cached =>
    if (plan.broker k).isApplicable s then
      match cached with
      | [] => false
      | (k', _) :: cached => k' == k && sameBrokers s brokers cached
    else
      match cached with
      | [] => sameBrokers s brokers []
      | (k', resource) :: cached => k' != k && sameBrokers s brokers ((k', resource) :: cached)

/-- The brokers give back their resources, the last one first. -/
def unassignAll : List (Fin plan.brokers.length) → S → Except BrokerError S
  | [], s => .ok s
  | k :: brokers, s => (plan.broker k).unassign s >>= unassignAll brokers

/-- The resources are assigned one after another as long as they are available. -/
def assignCached (unsetCycle : S → S) : List (Fin plan.brokers.length × R) → List (Fin plan.brokers.length) → S →
    Attempt plan.brokers.length S R
  | [], _, s => ⟨[], .ok (s, true)⟩
  | (k, resource) :: cached, assigned, s =>
    match (plan.broker k).isAvailable resource s with
    | .error e => ⟨[], .error e⟩
    | .ok false => ⟨[], (plan.unassignAll assigned s).map fun s => (unsetCycle s, false)⟩
    | .ok true =>
      match (plan.broker k).assign resource s with
      | .error e => ⟨[⟨k, resource, s⟩], .error e⟩
      | .ok s' =>
        let rest := assignCached unsetCycle cached (k :: assigned) s'
        ⟨⟨k, resource, s⟩ :: rest.assignments, rest.result⟩

/-- `tryCachedAssignment`; the cache is clear afterwards. -/
def tryCachedAssignment [DecidableEq N] (setCycle : Nat → S → S) (unsetCycle : S → S) (node : N) (cycle : Nat) (s : S) :
    Attempt plan.brokers.length S R :=
  if plan.lastTriedNode ≠ some node ∨ plan.lastTriedCycle ≠ cycle ∨ plan.lastTestedWorkingAssignment = [] then
    ⟨[], .ok (s, false)⟩
  else if !plan.sameBrokers s (List.finRange _) plan.lastTestedWorkingAssignment then ⟨[], .ok (s, false)⟩
  else plan.assignCached unsetCycle plan.lastTestedWorkingAssignment [] (setCycle cycle s)

/-- What is assigned is a cached resource that is available. -/
theorem mem_assignCached {unsetCycle : S → S} {cached : List (Fin plan.brokers.length × R)}
    {assigned : List (Fin plan.brokers.length)} {s : S} {a : Assignment plan.brokers.length S R}
    (ha : a ∈ (plan.assignCached unsetCycle cached assigned s).assignments) :
    (a.broker, a.resource) ∈ cached ∧ (plan.broker a.broker).isAvailable a.resource a.state = .ok true := by
  induction cached generalizing assigned s with
  | nil => cases ha
  | cons step cached ih =>
    obtain ⟨k, resource⟩ := step
    rw [assignCached] at ha
    cases havailable : (plan.broker k).isAvailable resource s with
    | error e =>
      rw [havailable] at ha
      cases ha
    | ok available =>
      rw [havailable] at ha
      cases available with
      | false => cases ha
      | true =>
        cases hassign : (plan.broker k).assign resource s with
        | error e =>
          rw [hassign] at ha
          obtain rfl := List.mem_singleton.1 ha
          exact ⟨List.mem_cons_self, havailable⟩
        | ok s' =>
          rw [hassign] at ha
          cases List.mem_cons.1 ha with
          | inl hfirst =>
            rw [hfirst]
            exact ⟨List.mem_cons_self, havailable⟩
          | inr hrest =>
            obtain ⟨hmem, havailable'⟩ := ih hrest
            exact ⟨List.mem_cons_of_mem _ hmem, havailable'⟩

theorem mem_tryCachedAssignment [DecidableEq N] {setCycle : Nat → S → S} {unsetCycle : S → S} {node : N} {cycle : Nat}
    {s : S} {a : Assignment plan.brokers.length S R}
    (ha : a ∈ (plan.tryCachedAssignment setCycle unsetCycle node cycle s).assignments) :
    (a.broker, a.resource) ∈ plan.lastTestedWorkingAssignment ∧
      (plan.broker a.broker).isAvailable a.resource a.state = .ok true := by
  unfold tryCachedAssignment at ha
  split at ha
  · cases ha
  · split at ha
    · cases ha
    · exact plan.mem_assignCached ha

end AssignmentPlan

/-! ## Buses in a plan -/

/-- The buses and the move, among all that the brokers keep. -/
structure PlanState (O : Type) where
  buses : BusRecord
  isBusAssigned : Bool
  move : Move
  cycle : Nat
  others : O

/-- The broker of buses as a broker of a plan. -/
def BusBroker.inPlan {O Q : Type} (broker : BusBroker) (cycle : Nat) : ResourceBroker (PlanState O) (Bus ⊕ Q) where
  isApplicable _ := true
  allAvailableResources s := (broker.allAvailableResources s.buses cycle s.move).map (·.map .inl)
  isAvailable
    | .inl bus, s => broker.isAvailable s.buses bus cycle s.move
    | .inr _, s => do
      let _ ← inputPSocket s.move
      match s.move.source with
      | .immediate _ => pure ()
      | .port source =>
        let _ ← outputPSocket source
      throw (.invalidData "Wrong type of resource for the broker given!")
  assign
    | .inl bus, s => (broker.assign s.buses bus cycle s.move).map fun r =>
      { s with buses := r.1, move := r.2, isBusAssigned := true }
    | .inr _, _ => .error (.invalidData "Broker does not contain given resource.")
  unassign s :=
    if s.isBusAssigned then
      match s.move.bus.bind broker.resourceOf with
      | some bus => (bus.unassign broker.initiationInterval s.buses s.cycle).map fun buses =>
        { s with buses, isBusAssigned := false }
      | none => .error .aborted
    else .ok s

end Tce.ResourceManager
