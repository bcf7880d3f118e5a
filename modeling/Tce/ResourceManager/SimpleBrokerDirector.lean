import Tce.Base.Backtracking
import Tce.ResourceManager.TransportResources

/-!
# The broker director

A move gets a resource of each broker that is applicable to it. What a broker
can give depends on what the brokers before it have given, so the director tries
the choices one after another and goes back where there is none.
-/

namespace Tce.BrokerDirector

open ResourceManager (BrokerError)

/-! ## Brokers -/

/-- `move` is all of the move that brokers read and write. -/
structure Node (M : Type) where
  move : M
  cycle : Option Int

/-- One of `n` brokers, over its own state. The resources available are those of
`allAvailableResources` after they are sorted, and may depend on all brokers. -/
structure ResourceBroker (n : Nat) (σ M R : Type) where
  isApplicable : M → Bool
  isAlreadyAssigned : Int → σ → Node M → Bool
  allAvailableResources : Int → (Fin n → σ) → Node M → List R
  isAvailable : Int → (Fin n → σ) → Node M → R → Bool
  assign : Int → R → σ → Node M → σ × M
  unassign : σ → Node M → σ × M

/-- The states of the brokers, and the node that is assigned. -/
structure State (n : Nat) (σ M : Type) where
  brokers : Fin n → σ
  node : Node M

structure PendingAssignment (R : Type) where
  lastTriedAssignment : Option Nat
  availableResources : List R

namespace PendingAssignment
variable {R : Type}

/-- The place after the last one tried. -/
def next (pending : PendingAssignment R) : Nat := (pending.lastTriedAssignment.map (· + 1)).getD 0

/-- The resource last tried. -/
def resource (pending : PendingAssignment R) : Option R :=
  pending.lastTriedAssignment.bind (pending.availableResources[·]?)

def forget (pending : PendingAssignment R) : PendingAssignment R := { pending with lastTriedAssignment := none }

end PendingAssignment

/-! ## Plans -/

/-- The assignment that was last found, by the node and the cycle. -/
structure Cache (N : Type) (n : Nat) (R : Type) where
  lastTriedNode : Option N
  lastTriedCycle : Int
  lastTestedWorkingAssignment : List (Fin n × R)

/-- A plan while it serves a request. -/
structure Plan (N : Type) (n : Nat) (σ M R : Type) where
  state : State n σ M
  applicableAssignments : List (Fin n)
  pending : Fin n → PendingAssignment R
  currentBroker : Nat
  cache : Cache N n R

namespace Plan
variable {N : Type} {n : Nat} {σ M R : Type} (broker : Fin n → ResourceBroker n σ M R) (node : N) (cycle : Int)

def clearCache : Cache N n R := ⟨none, -1, []⟩

def assign (k : Fin n) (resource : R) (s : State n σ M) : State n σ M :=
  let assigned := (broker k).assign cycle resource (s.brokers k) s.node
  ⟨Function.update s.brokers k assigned.1, { s.node with move := assigned.2 }⟩

def unassign (k : Fin n) (s : State n σ M) : State n σ M :=
  let unassigned := (broker k).unassign (s.brokers k) s.node
  ⟨Function.update s.brokers k unassigned.1, { s.node with move := unassigned.2 }⟩

def isAlreadyAssigned (k : Fin n) (s : State n σ M) : Bool := (broker k).isAlreadyAssigned cycle (s.brokers k) s.node

/-- `MoveNode::setCycle`. -/
def setCycle (s : State n σ M) : Except BrokerError (State n σ M) :=
  match s.node.cycle with
  | some placed =>
    if placed = cycle then .ok s
    else .error (.invalidData "MoveNode is already placed in cycle .")
  | none => .ok { s with node := { s.node with cycle := some cycle } }

/-- The brokers that are not applicable take no part. -/
def setRequest (p : Plan N n σ M R) : Except BrokerError (Plan N n σ M R) := do
  let state ← setCycle cycle p.state
  let applicable := (List.finRange n).filter fun k => (broker k).isApplicable state.node.move
  if applicable.isEmpty then throw (.moduleRunTimeError "No applicable brokers found for assignment!")
  else
    return { p with
      state := state
      applicableAssignments := applicable
      pending := fun k =>
        if (broker k).isApplicable state.node.move then (p.pending k).forget else p.pending k
      currentBroker := 0 }

/-- The resources tried so far, with one more of the last broker. -/
def tested (p : Plan N n σ M R) (k : Fin n) : Option (List (Fin n × R)) := do
  let before ← p.applicableAssignments.dropLast.mapM fun k => ((p.pending k).resource.map (k, ·))
  let last ← (p.pending k).availableResources[(p.pending k).next]?
  return before ++ [(k, last)]

/-- The resources of the broker are asked for once, before the first of them is tried. -/
def asked (k : Fin n) (p : Plan N n σ M R) : PendingAssignment R :=
  match (p.pending k).lastTriedAssignment with
  | none => ⟨none, (broker k).allAvailableResources cycle p.state.brokers p.state.node⟩
  | some _ => p.pending k

/-- If the last broker has a resource then the assignment is remembered. -/
def isTestedAssignmentPossible (k : Fin n) (p : Plan N n σ M R) : Except BrokerError (Bool × Plan N n σ M R) :=
  let pending := asked broker cycle k p
  let p := { p with pending := Function.update p.pending k pending }
  if pending.next < pending.availableResources.length then
    if p.currentBroker + 1 = p.applicableAssignments.length then
      match p.tested k with
      | some assignment => .ok (true, { p with cache := ⟨some node, cycle, assignment⟩ })
      | none => .error .aborted
    else .ok (true, p)
  else .ok (false, p)

def tryNextAssignment (k : Fin n) (p : Plan N n σ M R) : Except BrokerError (Plan N n σ M R) :=
  let state := if isAlreadyAssigned broker cycle k p.state then unassign broker k p.state else p.state
  match (p.pending k).availableResources[(p.pending k).next]? with
  | some resource =>
    .ok { p with
      state := assign broker cycle k resource state
      pending := Function.update p.pending k { p.pending k with lastTriedAssignment := some (p.pending k).next } }
  | none => .error (.moduleRunTimeError "Ran out of possible assignments!")

def advance (p : Plan N n σ M R) : Except BrokerError (Plan N n σ M R) :=
  if p.currentBroker + 1 < p.applicableAssignments.length then .ok { p with currentBroker := p.currentBroker + 1 }
  else .error (.moduleRunTimeError "Advanced beyond last resource broker!")

def undo (k : Fin n) (s : State n σ M) : State n σ M :=
  if isAlreadyAssigned broker cycle k s then unassign broker k s else s

/-- The broker forgets what it has tried, the one before it gives its resource back. -/
def backtrack (k : Fin n) (p : Plan N n σ M R) : Except BrokerError (Plan N n σ M R) :=
  let state := undo broker cycle k (undo broker cycle k p.state)
  let pending := Function.update p.pending k (p.pending k).forget
  match p.currentBroker with
  | 0 => .error (.moduleRunTimeError "Backtracked beyond first resource broker!")
  | before + 1 =>
    match p.applicableAssignments[before]? with
    | some k' => .ok { p with state := undo broker cycle k' state, pending := pending, currentBroker := before }
    | none => .error .aborted

/-- All brokers give back what they have assigned, the first one first. -/
def resetAssignments (p : Plan N n σ M R) : Plan N n σ M R :=
  let state := p.applicableAssignments.foldl (fun s k => undo broker cycle k s) p.state
  { p with
    state := { state with node := { state.node with cycle := none } }
    pending := p.applicableAssignments.foldl (fun pending k => Function.update pending k (pending k).forget) p.pending
    currentBroker := 0 }

/-! ## Searches -/

/-- The loop goes on, unless there is an error. -/
def goOn {S T : Type} : Except BrokerError S → Except BrokerError T ⊕ S
  | .ok s => .inr s
  | .error e => .inl (.error e)

/-- A round of the loops: without a resource the broker before is tried again, or at the first
broker the search has failed; with a resource of the last broker an assignment is found. -/
def round {T : Type} (failed : Plan N n σ M R → Except BrokerError T)
    (found : Fin n → Plan N n σ M R → Except BrokerError T) (p : Plan N n σ M R) :
    Except BrokerError T ⊕ Plan N n σ M R :=
  match p.applicableAssignments[p.currentBroker]? with
  | none => .inl (.error .aborted)
  | some k =>
    match isTestedAssignmentPossible broker node cycle k p with
    | .error e => .inl (.error e)
    | .ok (false, p) => if p.currentBroker = 0 then .inl (failed p) else goOn (backtrack broker cycle k p)
    | .ok (true, p) =>
      if p.currentBroker + 1 = p.applicableAssignments.length then .inl (found k p)
      else goOn (tryNextAssignment broker cycle k p >>= advance)

def canAssignRound : Plan N n σ M R → Except BrokerError (Bool × Plan N n σ M R) ⊕ Plan N n σ M R :=
  round broker node cycle (fun p => .ok (false, resetAssignments broker cycle p))
    (fun _ p => .ok (true, resetAssignments broker cycle p))

def assignRound : Plan N n σ M R → Except BrokerError (Plan N n σ M R) ⊕ Plan N n σ M R :=
  round broker node cycle (fun _ => .error (.moduleRunTimeError "No resource assignment found for "))
    (tryNextAssignment broker cycle)

/-! ## Cached assignments -/

/-- The same brokers are applicable for the cached assignment and for the node. -/
def sameBrokers (s : State n σ M) : List (Fin n) → List (Fin n × R) → Bool
  | [], _ => true
  | k :: brokers, cached =>
    if (broker k).isApplicable s.node.move then
      match cached with
      | [] => false
      | (k', _) :: cached => k' == k && sameBrokers s brokers cached
    else
      match cached with
      | [] => sameBrokers s brokers []
      | (k', resource) :: cached => k' != k && sameBrokers s brokers ((k', resource) :: cached)

/-- The resources are assigned as long as they are available, or those before are given back. -/
def assignCached : List (Fin n × R) → List (Fin n) → State n σ M → State n σ M × Bool
  | [], _, s => (s, true)
  | (k, resource) :: cached, assigned, s =>
    if (broker k).isAvailable cycle s.brokers s.node resource then
      assignCached cached (k :: assigned) (assign broker cycle k resource s)
    else
      let s := assigned.foldl (fun s k => unassign broker k s) s
      ({ s with node := { s.node with cycle := none } }, false)

def tryCachedAssignment [DecidableEq N] (p : Plan N n σ M R) : Except BrokerError (Plan N n σ M R × Bool) :=
  if p.cache.lastTriedNode ≠ some node ∨ p.cache.lastTriedCycle ≠ cycle ∨
      p.cache.lastTestedWorkingAssignment.isEmpty = true then
    .ok ({ p with cache := clearCache }, false)
  else if !sameBrokers broker p.state (List.finRange n) p.cache.lastTestedWorkingAssignment then
    .ok ({ p with cache := clearCache }, false)
  else do
    let state ← setCycle cycle p.state
    let r := assignCached broker cycle p.cache.lastTestedWorkingAssignment [] state
    return ({ p with state := r.1, cache := clearCache }, r.2)

end Plan

/-! ## The director -/

/-- `isAssigned`, `guardLatency` and `immediateWriteCycle` are what the director asks of the move,
the last one of the broker of immediate units if the source is an immediate register. -/
structure SimpleBrokerDirector (n : Nat) (σ M R : Type) where
  broker : Fin n → ResourceBroker n σ M R
  busCount : Nat
  initiationInterval : Nat
  isAssigned : M → Bool
  guardLatency : M → Int
  immediateWriteCycle : (Fin n → σ) → Node M → Option Int

/-- `knownMinCycle` is none before the first assignment. -/
structure Known where
  knownMaxCycle : Int
  knownMinCycle : Option Int
  moveCounts : Int → Option Nat

def INT_MAX : Int := 2147483647

namespace SimpleBrokerDirector
variable {N : Type} {n : Nat} {σ M R : Type} (director : SimpleBrokerDirector n σ M R) (known : Known)

def instructionIndex (cycle : Int) : Int :=
  if director.initiationInterval ≠ 0 then cycle % director.initiationInterval else cycle

def isScheduled (node : Node M) : Bool := node.cycle.isSome && director.isAssigned node.move

/-- As many moves are counted for the cycle as there are buses. -/
def instructionFull (cycle : Int) : Bool := (known.moveCounts cycle).any (director.busCount ≤ ·)

/-- The move of the node is as before, and so is its cycle. -/
def restore (before : Node M) (p : Plan N n σ M R) : Except BrokerError (Plan N n σ M R) :=
  let node : Node M := { p.state.node with move := before.move }
  let state : State n σ M := { p.state with node := node }
  match before.cycle with
  | some placed => (Plan.setCycle placed state).map fun state => { p with state := state }
  | none => .ok { p with state := state }

/-- `none` is a search that is not over after `fuel` rounds. -/
def canAssign (fuel : Nat) (node : N) (cycle : Int) (p : Plan N n σ M R) :
    Option (Except BrokerError (Bool × Plan N n σ M R)) :=
  if director.isScheduled p.state.node then some (.ok (false, p))
  else if director.instructionFull known cycle then some (.ok (false, p))
  else
    match Plan.setRequest director.broker cycle p with
    | .error e => some (.error e)
    | .ok requested =>
      (Backtracking.loop (Plan.canAssignRound director.broker node cycle) fuel requested).map fun r => do
        let (success, q) ← r
        let q ← restore p.state.node q
        return (success, q)

/-- The bounds of the cycles known to be used, and the moves counted by instruction. -/
def assigned (cycle : Int) (s : State n σ M) : Except BrokerError Known :=
  let max := if known.knownMaxCycle < cycle then cycle else known.knownMaxCycle
  let first := cycle - Max.max 0 (director.guardLatency s.node.move - 1)
  let min := match known.knownMinCycle with
    | some min => if first < min then first else min
    | none => first
  let write := (director.immediateWriteCycle s.brokers s.node).getD min
  if min < 0 ∨ Min.min min write < 0 then .error .aborted
  else
    let index := director.instructionIndex cycle
    .ok ⟨max, some (Min.min min write),
      Function.update known.moveCounts index (some ((known.moveCounts index).getD 0 + 1))⟩

def assign [DecidableEq N] (fuel : Nat) (node : N) (cycle : Int) (p : Plan N n σ M R) :
    Option (Except BrokerError (Known × Plan N n σ M R)) :=
  if cycle < 0 then some (.error (.invalidData "Negative cycles not supported by RM"))
  else if cycle = INT_MAX then some (.error (.invalidData "INT_MAX cycle not supported by RM"))
  else if p.state.node.cycle.any (· != cycle) then
    some (.error (.invalidData "Node is already placed in a cycle different from given cycle."))
  else
    let requested := do
      let (p, success) ← Plan.tryCachedAssignment director.broker node cycle p
      let p ← Plan.setRequest director.broker cycle p
      return (p, success)
    let searched : Option (Except BrokerError (Plan N n σ M R)) := match requested with
      | .error e => some (.error e)
      | .ok (p, true) => some (.ok p)
      | .ok (p, false) => Backtracking.loop (Plan.assignRound director.broker node cycle) fuel p
    searched.map fun r => do
      let q ← r
      let known ← director.assigned known cycle q.state
      return (known, q)

end SimpleBrokerDirector

end Tce.BrokerDirector
