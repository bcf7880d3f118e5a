import Mathlib.Data.List.Basic
import Tce.DDG.DataDependenceGraph

/-!
# The cycles that dependences allow

`earliestCycle` bounds the cycle of a move by the moves it depends on, for
scheduling top down, and `latestCycle` by those that depend on it, for
scheduling bottom up. Each says for itself what distance an edge demands, and
the two differ for the results of an operation.
-/

namespace Tce.DDG

/-- What is in an `int` after arithmetic with an `unsigned int`. -/
def toInt (x : Int) : Int := x.bmod 4294967296

def intMax : Int := 2147483647

/-- What `earliestCycle` can be told to ignore. -/
structure Ignored where
  ignoreRegWaRs : Bool := false
  ignoreRegWaWs : Bool := false
  ignoreGuards : Bool := false
  ignoreFuDeps : Bool := false
  ignoreSameOperationEdges : Bool := false
  deriving DecidableEq, Repr

namespace DataDependenceGraph
variable {N O : Type}

def theMachine (g : DataDependenceGraph N O) : Except Fault Machine :=
  match g.machine with
  | none => .error (.InvalidData " setMachine() must be called before this")
  | some m => .ok m

/-- The iterations of the loop between the two moves are taken off with unsigned arithmetic. -/
def loopDistance (ii : Nat) (e : Edge N) : Except Fault Int :=
  if ii = 0 ∧ e.loopDepth ≠ 0 then .error (.assertion "ii should not be 0 if we have an loop edge")
  else .ok ((ii * e.loopDepth % 4294967296 : Nat) : Int)

/-- The latency of a guard for an edge that is its use, and that of a register otherwise. -/
def useLatency (e : Edge N) (n : MoveNode O) : Except Fault Nat := if e.guardUse then n.guardLatency else .ok 1

/-- `ignoreSameOperationEdges` covers the moves that bring an operation its own results. -/
def isSameOperationEdge [DecidableEq O] (g : DataDependenceGraph N O) (e : Edge N) : Bool :=
  !e.isBackEdge && (g.node e.head).isSourceOperation && (g.node e.tail).isDestinationOperation &&
    (g.node e.head).sourceOperation == (g.node e.tail).destinationOperation

/-- The effective cycle of the tail, without the loop; none when the edge is ignored. -/
def effTailCycle [DecidableEq O] (g : DataDependenceGraph N O) (m : Machine) (ignored : Ignored) (e : Edge N) (cycle : Int) :
    Except Fault (Option Int) :=
  if e.headPseudo then .ok (some (cycle - m.delaySlots))
  else if e.edgeReason = .EDGE_OPERATION ∧ (g.node e.head).isSourceOperation ∧
      (g.node e.tail).inSameOperation (g.node e.head) then
    .ok (some (cycle + m.getOperationLatency e.data))
  else
    match e.dependenceType with
    | .DEP_WAW =>
      if e.edgeReason = .EDGE_REGISTER ∧ ignored.ignoreRegWaWs then .ok none else .ok (some (cycle + 1))
    | .DEP_WAR =>
      if e.edgeReason = .EDGE_REGISTER ∧ ignored.ignoreRegWaRs then .ok none
      else do
        let latency ← useLatency e (g.node e.tail)
        -- in a write after a read the latency goes backwards
        return some (cycle - (if m.triggerInvalidatesResults then 0 else latency : Nat) + 1)
    | _ => do
      let latency ← useLatency e (g.node e.head)
      return some (cycle + latency)

/-- The bound an edge sets for its head with its tail in a cycle. -/
def tailBound [DecidableEq O] (g : DataDependenceGraph N O) (m : Machine) (ii : Nat) (ignored : Ignored) (e : Edge N) (cycle : Int) :
    Except Fault (Option Int) := do
  match ← g.effTailCycle m ignored e cycle with
  | none => return none
  | some effTailCycle => do
    let distance ← loopDistance ii e
    return some (toInt (effTailCycle - distance))

/-- The bound an incoming edge sets, if any. -/
def edgeEarliest [DecidableEq O] (g : DataDependenceGraph N O) (m : Machine) (ii : Nat) (ignored : Ignored) (e : Edge N) :
    Except Fault (Option Int) :=
  if ignored.ignoreGuards && e.guardUse then .ok none
  else if ignored.ignoreFuDeps && (e.edgeReason == .EDGE_FUSTATE || e.edgeReason == .EDGE_MEMORY) then .ok none
  else if ignored.ignoreSameOperationEdges && e.edgeReason == .EDGE_OPERATION then .ok none
  else if ignored.ignoreSameOperationEdges && g.isSameOperationEdge e then .ok none
  else
    match (g.node e.tail).cycle with
    | none => .ok none
    | some cycle => g.tailBound m ii ignored e cycle

/-- The largest of the bounds. -/
def maxOfBounds {E : Type} (bound : E → Except Fault (Option Int)) (es : List E) (minCycle : Int) : Except Fault Int :=
  es.foldlM (fun minCycle e => do
    match ← bound e with
    | none => return minCycle
    | some cycle => return max cycle minCycle) minCycle

/-- A trigger that invalidates the results of its operation waits for them to be
read, and so on through the operations that read them. -/
def earliestCycle [DecidableEq N] [DecidableEq O] (g : DataDependenceGraph N O) (ii : Nat) : (stack : Nat) → Ignored → N → Except Fault Int
  | 0, _, _ => .error .stackOverflow
  | stack + 1, ignored, v => do
    let m ← g.theMachine
    let minCycle ← maxOfBounds (g.edgeEarliest m ii ignored) (g.inEdges v) 0
    match (g.node v).destinationOperation with
    | none => return minCycle
    | some po =>
      if m.triggerInvalidatesResults && (g.node v).isDestinationOperation then
        maxOfBounds (fun u => do
          let cycle ← g.earliestCycle ii stack
            { ignored with
              ignoreFuDeps := true
              ignoreSameOperationEdges := true } u
          return some cycle) (g.outputMoves po) minCycle
      else return minCycle

/-- The effective cycle of the head, without the loop. -/
def effHeadCycle (g : DataDependenceGraph N O) (m : Machine) (ignoreRegAntideps : Bool) (e : Edge N) (cycle : Int) :
    Except Fault (Option Int) :=
  if e.headPseudo then .ok (some (cycle + m.delaySlots))
  else
    match e.dependenceType with
    | .DEP_WAW =>
      if e.edgeReason = .EDGE_REGISTER ∧ !e.tailPseudo ∧ ignoreRegAntideps then .ok none else .ok (some (cycle - 1))
    | .DEP_WAR =>
      if e.edgeReason = .EDGE_REGISTER ∧ !e.tailPseudo ∧ ignoreRegAntideps then .ok none
      else do
        let latency ← useLatency e (g.node e.tail)
        return some (cycle + (if m.triggerInvalidatesResults then 0 else latency : Nat) - 1)
    | _ => do
      let latency ← useLatency e (g.node e.head)
      return some (cycle - latency)

/-- The bound an edge sets for its tail with its head in a cycle. -/
def headBound (g : DataDependenceGraph N O) (m : Machine) (ii : Nat) (ignoreRegAntideps : Bool) (e : Edge N)
    (cycle : Int) : Except Fault (Option Int) := do
  match ← g.effHeadCycle m ignoreRegAntideps e cycle with
  | none => return none
  | some effHeadCycle => do
    let distance ← loopDistance ii e
    return some (toInt (effHeadCycle + distance))

/-- A result that is overwritten has to be so before the next trigger, which would invalidate it. -/
def invalidationBound [DecidableEq O] (g : DataDependenceGraph N O) (e : Edge N) (maxCycle : Int) : Int :=
  match (g.node e.head).sourceOperation with
  | none => maxCycle
  | some headPO =>
    let isRegister := e.edgeReason == .EDGE_REGISTER || e.edgeReason == .EDGE_RA
    (g.inputMoves headPO).foldl (fun maxCycle i =>
      match (g.node i).cycle with
      | none => maxCycle
      | some cycle =>
        if e.dependenceType = .DEP_WAR ∧ isRegister then
          if (g.node e.tail).isDestinationOperation ∧ (g.node e.tail).destinationOperation = some headPO ∧
              !e.isBackEdge then min maxCycle cycle
          else min maxCycle (cycle - 1)
        else if e.dependenceType = .DEP_WAW ∧ isRegister then min maxCycle (cycle - 1)
        else maxCycle) maxCycle

/-- The loop over the outgoing edges; it ends at an unscheduled head. -/
def latestLoop [DecidableEq O] (g : DataDependenceGraph N O) (m : Machine) (ii : Nat)
    (ignoreRegAntideps ignoreUnscheduledSuccessors : Bool) : List (Edge N) → Int → Except Fault Int
  | [], maxCycle => .ok maxCycle
  | e :: es, maxCycle =>
    let invalidated (maxCycle : Int) :=
      if m.triggerInvalidatesResults && (g.node e.head).isSourceOperation then g.invalidationBound e maxCycle
      else maxCycle
    match (g.node e.head).cycle with
    | none =>
      if ignoreUnscheduledSuccessors then
        g.latestLoop m ii ignoreRegAntideps ignoreUnscheduledSuccessors es (invalidated maxCycle)
      else .ok (-1)
    | some cycle => do
      match ← g.headBound m ii ignoreRegAntideps e cycle with
      | none => g.latestLoop m ii ignoreRegAntideps ignoreUnscheduledSuccessors es maxCycle
      | some effHeadCycle =>
        g.latestLoop m ii ignoreRegAntideps ignoreUnscheduledSuccessors es (invalidated (min effHeadCycle maxCycle))

def latestCycle [DecidableEq N] [DecidableEq O] (g : DataDependenceGraph N O) (ii : Nat)
    (ignoreRegAntideps ignoreUnscheduledSuccessors : Bool) (u : N) : Except Fault Int := do
  let m ← g.theMachine
  g.latestLoop m ii ignoreRegAntideps ignoreUnscheduledSuccessors (g.outEdges u) intMax

/-! ## Bounds -/

theorem maxOfBounds_le {E : Type} {bound : E → Except Fault (Option Int)} {c : Int} {es : List E} :
    ∀ {minCycle : Int}, (∃ cycle, maxOfBounds bound es minCycle = .ok cycle ∧ cycle ≤ c) ↔
      minCycle ≤ c ∧ ∀ e ∈ es, ∃ b, bound e = .ok b ∧ ∀ cycle, b = some cycle → cycle ≤ c := by
  unfold maxOfBounds
  induction es with
  | nil =>
    intro minCycle
    constructor
    · rintro ⟨_, ⟨⟩, hle⟩
      exact ⟨hle, fun e he => by cases he⟩
    · exact fun h => ⟨minCycle, rfl, h.1⟩
  | cons e es ih =>
    intro minCycle
    rw [List.foldlM_cons, List.forall_mem_cons]
    cases hb : bound e with
    | error f =>
      constructor
      · rintro ⟨_, hok, _⟩
        cases hok
      · rintro ⟨_, ⟨_, hok, _⟩, _⟩
        cases hok
    | ok b =>
      cases b with
      | none =>
        refine (ih).trans (and_congr_right fun _ => ?_)
        exact ⟨fun h => ⟨⟨none, rfl, fun _ hnone => by cases hnone⟩, h⟩, fun h => h.2⟩
      | some cycle =>
        refine (ih).trans ?_
        rw [Int.max_le]
        constructor
        · rintro ⟨⟨hcycle, hmin⟩, hes⟩
          exact ⟨hmin, ⟨some cycle, rfl, fun _ heq => Option.some.inj heq ▸ hcycle⟩, hes⟩
        · rintro ⟨hmin, ⟨b, hok, hle⟩, hes⟩
          cases hok
          exact ⟨⟨hle cycle rfl, hmin⟩, hes⟩

/-- With all heads scheduled the loop goes over all edges. -/
theorem latestLoop_ge [DecidableEq O] {g : DataDependenceGraph N O} {m : Machine} {ii : Nat} (hm : m.triggerInvalidatesResults = false)
    {c : Int} {es : List (Edge N)} : ∀ {maxCycle : Int}, (∀ e ∈ es, ((g.node e.head).cycle).isSome) →
      ((∃ cycle, g.latestLoop m ii false false es maxCycle = .ok cycle ∧ c ≤ cycle) ↔
        c ≤ maxCycle ∧ ∀ e ∈ es, ∀ head, (g.node e.head).cycle = some head →
          ∃ b, g.headBound m ii false e head = .ok b ∧ ∀ cycle, b = some cycle → c ≤ cycle) := by
  induction es with
  | nil =>
    intro maxCycle _
    constructor
    · rintro ⟨_, ⟨⟩, hle⟩
      exact ⟨hle, fun e he => by cases he⟩
    · exact fun h => ⟨maxCycle, rfl, h.1⟩
  | cons e es ih =>
    intro maxCycle hscheduled
    rw [List.forall_mem_cons] at hscheduled ⊢
    obtain ⟨head, hhead⟩ := Option.isSome_iff_exists.1 hscheduled.1
    unfold latestLoop
    simp only [hhead, hm, Bool.false_and, Option.some.injEq, forall_eq']
    cases hb : g.headBound m ii false e head with
    | error f =>
      constructor
      · rintro ⟨_, hok, _⟩
        cases hok
      · rintro ⟨_, ⟨_, hok, _⟩, _⟩
        cases hok
    | ok b =>
      cases b with
      | none =>
        refine (ih hscheduled.2).trans (and_congr_right fun _ => ?_)
        exact ⟨fun h => ⟨⟨none, rfl, fun _ hnone => by cases hnone⟩, h⟩, fun h => h.2⟩
      | some cycle =>
        refine (ih hscheduled.2).trans ?_
        rw [if_neg (by simp), Int.le_min]
        constructor
        · rintro ⟨⟨hcycle, hmax⟩, hes⟩
          exact ⟨hmax, ⟨some cycle, rfl, fun _ heq => Option.some.inj heq ▸ hcycle⟩, hes⟩
        · rintro ⟨hmax, ⟨b, hok, hle⟩, hes⟩
          cases hok
          exact ⟨⟨hle cycle rfl, hmax⟩, hes⟩

/-! ## Distances -/

/-- The distance that the type of a dependence demands. -/
def typeDistance (g : DataDependenceGraph N O) (m : Machine) (e : Edge N) : Except Fault Int :=
  if e.headPseudo then .ok (-m.delaySlots)
  else
    match e.dependenceType with
    | .DEP_WAW => .ok 1
    | .DEP_WAR => (useLatency e (g.node e.tail)).map fun latency : Nat => 1 - (latency : Int)
    | _ => (useLatency e (g.node e.head)).map fun latency : Nat => (latency : Int)

/-- An edge to a result of the operation of its tail. -/
def isResultEdge [DecidableEq O] (g : DataDependenceGraph N O) (e : Edge N) : Bool :=
  !e.headPseudo && e.edgeReason == .EDGE_OPERATION && (g.node e.head).isSourceOperation &&
    (g.node e.tail).inSameOperation (g.node e.head)

/-- The distance demanded top down, which for results is the latency of the operation. -/
def topDownDistance [DecidableEq O] (g : DataDependenceGraph N O) (m : Machine) (e : Edge N) :
    Except Fault Int :=
  if g.isResultEdge e then .ok (m.getOperationLatency e.data) else g.typeDistance m e

/-- The cycles keep a distance, if there is one. -/
def Keeps (distance : Except Fault Int) (ii : Nat) (e : Edge N) (tail head : Int) : Prop :=
  ∃ d k, distance = .ok d ∧ loopDistance ii e = .ok k ∧ tail + d ≤ head + k

/-- Latencies and distances over loops with which no `int` overflows. -/
structure InRange (g : DataDependenceGraph N O) (m : Machine) (ii : Nat) : Prop where
  delaySlots : m.delaySlots ≤ 268435456
  guards : ∀ v latency, (g.node v).guardLatency = .ok latency → latency ≤ 268435456
  operations : ∀ e ∈ g.edges, m.getOperationLatency e.data ≤ 268435456
  loops : ∀ e ∈ g.edges, ii * e.loopDepth ≤ 268435456

/-- A cycle that a move can be given. -/
def InSchedule (cycle : Int) : Prop := 0 ≤ cycle ∧ cycle < 1073741824

theorem toInt_eq {x : Int} (h : -2147483648 ≤ x) (h' : x < 2147483648) : toInt x = x :=
  Int.bmod_eq_of_le_mul_two (by omega) (by omega)

section distances
variable {g : DataDependenceGraph N O} {m : Machine} {ii : Nat}

theorem loopDistance_range (hg : g.InRange m ii) {e : Edge N} (he : e ∈ g.edges) {k : Int}
    (hk : loopDistance ii e = .ok k) : 0 ≤ k ∧ k ≤ 268435456 := by
  unfold loopDistance at hk
  split at hk
  · cases hk
  · cases hk
    have hloop := hg.loops e he
    rw [Nat.mod_eq_of_lt (by omega)]
    omega

theorem useLatency_range (hg : g.InRange m ii) {e : Edge N} {v : N} {latency : Nat}
    (h : useLatency e (g.node v) = .ok latency) : latency ≤ 268435456 := by
  unfold useLatency at h
  split at h
  · exact hg.guards v latency h
  · cases h
    decide

theorem map_eq_ok {α β : Type} {r : Except Fault α} {f : α → β} {b : β} (h : r.map f = .ok b) :
    ∃ a, r = .ok a ∧ f a = b := by
  cases r with
  | error e => cases h
  | ok a => exact ⟨a, rfl, Except.ok.inj h⟩

theorem typeDistance_range (hg : g.InRange m ii) {e : Edge N} {d : Int} (hd : g.typeDistance m e = .ok d) :
    -268435456 ≤ d ∧ d ≤ 268435456 := by
  have hdelay := hg.delaySlots
  unfold typeDistance at hd
  split at hd
  · cases hd
    omega
  · split at hd
    · cases hd
      omega
    · obtain ⟨latency, hlatency, rfl⟩ := map_eq_ok hd
      have := useLatency_range hg hlatency
      omega
    · obtain ⟨latency, hlatency, rfl⟩ := map_eq_ok hd
      have := useLatency_range hg hlatency
      omega

theorem topDownDistance_range [DecidableEq O] (hg : g.InRange m ii) {e : Edge N} (he : e ∈ g.edges)
    {d : Int} (hd : g.topDownDistance m e = .ok d) : -268435456 ≤ d ∧ d ≤ 268435456 := by
  unfold topDownDistance at hd
  split at hd
  · cases hd
    have := hg.operations e he
    omega
  · exact typeDistance_range hg hd

theorem effTailCycle_eq [DecidableEq O] (hm : m.triggerInvalidatesResults = false) (e : Edge N) (cycle : Int) :
    g.effTailCycle m {} e cycle = (g.topDownDistance m e).map fun d => some (cycle + d) := by
  unfold effTailCycle topDownDistance isResultEdge typeDistance
  by_cases hpseudo : e.headPseudo = true
  · simp only [hpseudo, if_true, Bool.not_true, Bool.false_and, Bool.false_eq_true, if_false]
    rfl
  · simp only [hpseudo, Bool.false_eq_true, if_false, Bool.not_false, Bool.true_and, Bool.and_eq_true, beq_iff_eq,
      and_assoc, hm, and_false]
    split_ifs with hresult
    · rfl
    · cases e.dependenceType with
      | DEP_WAW => rfl
      | DEP_WAR =>
        cases useLatency e (g.node e.tail) with
        | error f => rfl
        | ok latency =>
          change Except.ok _ = Except.ok _
          congr 2
          dsimp only
          omega
      | DEP_RAW => cases useLatency e (g.node e.head) <;> rfl
      | DEP_UNKNOWN => cases useLatency e (g.node e.head) <;> rfl
      | DEP_TRIGGER => cases useLatency e (g.node e.head) <;> rfl

theorem effHeadCycle_eq (hm : m.triggerInvalidatesResults = false) (e : Edge N) (cycle : Int) :
    g.effHeadCycle m false e cycle = (g.typeDistance m e).map fun d => some (cycle - d) := by
  unfold effHeadCycle typeDistance
  by_cases hpseudo : e.headPseudo = true
  · rw [if_pos hpseudo, if_pos hpseudo]
    change Except.ok _ = Except.ok _
    congr 2
    omega
  · simp only [hpseudo, Bool.false_eq_true, if_false, hm, and_false]
    cases e.dependenceType with
    | DEP_WAW => rfl
    | DEP_WAR =>
      cases useLatency e (g.node e.tail) with
      | error f => rfl
      | ok latency =>
        change Except.ok _ = Except.ok _
        congr 2
        dsimp only
        omega
    | DEP_RAW => cases useLatency e (g.node e.head) <;> rfl
    | DEP_UNKNOWN => cases useLatency e (g.node e.head) <;> rfl
    | DEP_TRIGGER => cases useLatency e (g.node e.head) <;> rfl

end distances

/-! ## Schedules -/

/-- The graph with a cycle for every move. -/
def schedule (g : DataDependenceGraph N O) (cycle : N → Int) : DataDependenceGraph N O :=
  { g with node := fun v => { g.node v with cycle := if (g.node v).isMove then some (cycle v) else none } }

/-- The move is not before its earliest cycle. -/
def AtEarliest [DecidableEq N] [DecidableEq O] (g : DataDependenceGraph N O) (ii stack : Nat) (cycle : N → Int)
    (v : N) : Prop :=
  ∃ c, (g.schedule cycle).earliestCycle ii stack {} v = .ok c ∧ c ≤ cycle v

/-- The move is not after its latest cycle. -/
def AtLatest [DecidableEq N] [DecidableEq O] (g : DataDependenceGraph N O) (ii : Nat) (cycle : N → Int) (u : N) :
    Prop :=
  ∃ c, (g.schedule cycle).latestCycle ii false false u = .ok c ∧ cycle u ≤ c

/-- An edge allows the same pairs of cycles top down and bottom up. -/
def SameDistance [DecidableEq O] (g : DataDependenceGraph N O) (m : Machine) (ii : Nat) (e : Edge N) : Prop :=
  ∀ tail head, InSchedule tail → InSchedule head →
    ((∃ b, g.tailBound m ii {} e tail = .ok (some b) ∧ b ≤ head) ↔
      ∃ b, g.headBound m ii false e head = .ok (some b) ∧ tail ≤ b)

section duality
variable {g : DataDependenceGraph N O} {m : Machine} {ii : Nat}

/-- The bound of an edge from its distance and the one over the loop. -/
def boundOf (distance : Except Fault Int) (ii : Nat) (e : Edge N) (bound : Int → Int → Int) : Except Fault (Option Int) := do
  let d ← distance
  let k ← loopDistance ii e
  return some (bound d k)

theorem tailBound_eq [DecidableEq O] (hm : m.triggerInvalidatesResults = false) (e : Edge N) (tail : Int) :
    g.tailBound m ii {} e tail = boundOf (g.topDownDistance m e) ii e fun d k => toInt (tail + d - k) := by
  unfold tailBound boundOf
  rw [effTailCycle_eq hm]
  cases g.topDownDistance m e <;> rfl

theorem headBound_eq (hm : m.triggerInvalidatesResults = false) (e : Edge N) (head : Int) :
    g.headBound m ii false e head = boundOf (g.typeDistance m e) ii e fun d k => toInt (head - d + k) := by
  unfold headBound boundOf
  rw [effHeadCycle_eq hm]
  cases g.typeDistance m e <;> rfl

/-- A bound is met when the distance is kept, if it is so with every pair of distances. -/
theorem boundOf_iff {distance : Except Fault Int} {e : Edge N} {bound : Int → Int → Int} {met : Int → Prop}
    {tail head : Int} (h : ∀ d k, distance = .ok d → loopDistance ii e = .ok k →
      (met (bound d k) ↔ tail + d ≤ head + k)) :
    (∃ b, boundOf distance ii e bound = .ok (some b) ∧ met b) ↔ Keeps distance ii e tail head := by
  unfold boundOf Keeps
  cases distance with
  | error f =>
    constructor
    · rintro ⟨_, hok, _⟩
      cases hok
    · rintro ⟨_, _, hok, _⟩
      cases hok
  | ok d =>
    cases hk : loopDistance ii e with
    | error f =>
      constructor
      · rintro ⟨_, hok, _⟩
        cases hok
      · rintro ⟨_, _, _, hok, _⟩
        cases hok
    | ok k =>
      constructor
      · rintro ⟨b, hok, hmet⟩
        cases hok
        exact ⟨d, k, rfl, rfl, (h d k rfl hk).1 hmet⟩
      · rintro ⟨d', k', hd', hk', hle⟩
        cases hd'
        cases hk'
        exact ⟨_, rfl, (h d k rfl hk).2 hle⟩

theorem boundOf_ne_none (distance : Except Fault Int) (e : Edge N) (bound : Int → Int → Int) :
    boundOf distance ii e bound ≠ .ok none := by
  unfold boundOf
  cases distance with
  | error f => exact fun h => by cases h
  | ok d => cases loopDistance ii e <;> exact fun h => by cases h

/-- Within the range the bound for the head is the distance. -/
theorem tailBound_iff [DecidableEq O] (hm : m.triggerInvalidatesResults = false) (hg : g.InRange m ii) {e : Edge N}
    (he : e ∈ g.edges) {tail : Int} (htail : InSchedule tail) (head : Int) :
    (∃ b, g.tailBound m ii {} e tail = .ok (some b) ∧ b ≤ head) ↔ Keeps (g.topDownDistance m e) ii e tail head := by
  rw [tailBound_eq hm]
  refine boundOf_iff fun d k hd hk => ?_
  have hdr := topDownDistance_range hg he hd
  have hkr := loopDistance_range hg he hk
  obtain ⟨hlow, hhigh⟩ := htail
  rw [toInt_eq (by omega) (by omega)]
  omega

theorem headBound_iff (hm : m.triggerInvalidatesResults = false) (hg : g.InRange m ii) {e : Edge N} (he : e ∈ g.edges)
    {head : Int} (hhead : InSchedule head) (tail : Int) :
    (∃ b, g.headBound m ii false e head = .ok (some b) ∧ tail ≤ b) ↔ Keeps (g.typeDistance m e) ii e tail head := by
  rw [headBound_eq hm]
  refine boundOf_iff fun d k hd hk => ?_
  have hdr := typeDistance_range hg hd
  have hkr := loopDistance_range hg he hk
  obtain ⟨hlow, hhigh⟩ := hhead
  rw [toInt_eq (by omega) (by omega)]
  omega

/-- The latency of an operation is the distance that is demanded bottom up for its results. -/
def ResultLatenciesAgree [DecidableEq O] (g : DataDependenceGraph N O) (m : Machine) (ii : Nat) : Prop :=
  ∀ e ∈ g.edges, g.isResultEdge e = true → (ii = 0 → e.loopDepth = 0) →
    g.typeDistance m e = .ok (m.getOperationLatency e.data)

theorem loopDistance_ok_iff {e : Edge N} : (∃ k, loopDistance ii e = .ok k) ↔ (ii = 0 → e.loopDepth = 0) := by
  unfold loopDistance
  split
  · next h =>
    constructor
    · rintro ⟨_, hok⟩
      cases hok
    · exact fun hne => absurd (hne h.1) h.2
  · next h => exact ⟨fun _ hii => by_contra fun hne => h ⟨hii, hne⟩, fun _ => ⟨_, rfl⟩⟩

/-- Two distances that allow the same cycles are the same. -/
theorem eq_of_keeps_iff (hg : g.InRange m ii) {e : Edge N} (he : e ∈ g.edges) {d : Int} {distance : Except Fault Int}
    {k : Int} (hk : loopDistance ii e = .ok k) (hd : -268435456 ≤ d ∧ d ≤ 268435456)
    (hdistance : ∀ d', distance = .ok d' → -268435456 ≤ d' ∧ d' ≤ 268435456)
    (h : ∀ tail head, InSchedule tail → InSchedule head →
      (Keeps (.ok d) ii e tail head ↔ Keeps distance ii e tail head)) : distance = .ok d := by
  have hkr := loopDistance_range hg he hk
  have htail : InSchedule 536870912 := ⟨by decide, by decide⟩
  have hhead {d' : Int} (hd' : -268435456 ≤ d' ∧ d' ≤ 268435456) : InSchedule (536870912 + d' - k) := by
    unfold InSchedule
    omega
  -- a head right at the one distance keeps the other
  obtain ⟨d', k', hd', hk', hle⟩ := (h _ _ htail (hhead hd)).1 ⟨d, k, rfl, hk, by omega⟩
  obtain ⟨d'', k'', hd'', hk'', hle'⟩ := (h _ _ htail (hhead (hdistance d' hd'))).2 ⟨d', k, hd', hk, by omega⟩
  cases hd''
  rw [hk] at hk' hk''
  cases hk'
  cases hk''
  rw [hd']
  congr 1
  omega

theorem sameDistance_iff [DecidableEq O] (hm : m.triggerInvalidatesResults = false) (hg : g.InRange m ii)
    {e : Edge N} (he : e ∈ g.edges) : g.SameDistance m ii e ↔ (g.isResultEdge e = true → (ii = 0 → e.loopDepth = 0) →
      g.typeDistance m e = .ok (m.getOperationLatency e.data)) := by
  constructor
  · intro h hresult hloop
    obtain ⟨k, hk⟩ := loopDistance_ok_iff.2 hloop
    have htop : g.topDownDistance m e = .ok (m.getOperationLatency e.data) := if_pos hresult
    apply eq_of_keeps_iff hg he hk (topDownDistance_range hg he htop) (fun d' hd' => typeDistance_range hg hd')
    intro tail head htail hhead
    rw [← htop, ← tailBound_iff hm hg he htail, ← headBound_iff hm hg he hhead]
    exact h tail head htail hhead
  · intro h tail head htail hhead
    rw [tailBound_iff hm hg he htail, headBound_iff hm hg he hhead]
    by_cases hloop : ii = 0 → e.loopDepth = 0
    · have hsame : g.topDownDistance m e = g.typeDistance m e := by
        unfold topDownDistance
        split
        · next hresult => exact (h hresult hloop).symm
        · rfl
      rw [hsame]
    · -- without a distance over the loop neither is kept
      have hnone : ∀ distance, ¬ Keeps distance ii e tail head := by
        rintro distance ⟨d, k, _, hk, _⟩
        exact hloop (loopDistance_ok_iff.1 ⟨k, hk⟩)
      exact iff_of_false (hnone _) (hnone _)

/-- The graph has no dependence on its entry nodes. -/
def HeadsAreMoves (g : DataDependenceGraph N O) : Prop := ∀ e ∈ g.edges, (g.node e.head).isMove = true

theorem tailBound_schedule [DecidableEq O] (cycle : N → Int) (e : Edge N) (c : Int) :
    (g.schedule cycle).tailBound m ii {} e c = g.tailBound m ii {} e c := rfl

theorem headBound_schedule (cycle : N → Int) (e : Edge N) (c : Int) :
    (g.schedule cycle).headBound m ii false e c = g.headBound m ii false e c := rfl

theorem tailBound_ne_none [DecidableEq O] (hm : m.triggerInvalidatesResults = false) (e : Edge N) (c : Int) :
    g.tailBound m ii {} e c ≠ .ok none := by
  rw [tailBound_eq hm]
  exact boundOf_ne_none _ e _

theorem headBound_ne_none (hm : m.triggerInvalidatesResults = false) (e : Edge N) (c : Int) :
    g.headBound m ii false e c ≠ .ok none := by
  rw [headBound_eq hm]
  exact boundOf_ne_none _ e _

variable [DecidableEq N] [DecidableEq O]

/-- Moves are at or after their earliest cycles when every edge between moves keeps its distance. -/
theorem atEarliest_iff (hmachine : g.machine = some m) (hm : m.triggerInvalidatesResults = false) (stack : Nat)
    {cycle : N → Int} (hcycle : ∀ v, InSchedule (cycle v)) (v : N) :
    g.AtEarliest ii (stack + 1) cycle v ↔ ∀ e ∈ g.edges, e.head = v → (g.node e.tail).isMove = true →
      ∃ b, g.tailBound m ii {} e (cycle e.tail) = .ok (some b) ∧ b ≤ cycle v := by
  have hearliest : (g.schedule cycle).earliestCycle ii (stack + 1) {} v =
      maxOfBounds ((g.schedule cycle).edgeEarliest m ii {}) (g.inEdges v) 0 := by
    have htheMachine : (g.schedule cycle).theMachine = pure m := by
      unfold theMachine
      change (match g.machine with | none => _ | some m => _) = _
      rw [hmachine]
      rfl
    unfold earliestCycle
    rw [htheMachine, pure_bind]
    simp only [hm, Bool.false_and, Bool.false_eq_true, if_false]
    cases ((g.schedule cycle).node v).destinationOperation <;> exact bind_pure _
  unfold AtEarliest
  rw [hearliest, maxOfBounds_le, and_iff_right (hcycle v).1]
  unfold inEdges
  constructor
  · intro h e he hhead htail
    obtain ⟨b, hb, hle⟩ := h e (List.mem_filter.2 ⟨he, by simpa using hhead⟩)
    have hscheduled : ((g.schedule cycle).node e.tail).cycle = some (cycle e.tail) := if_pos htail
    unfold edgeEarliest at hb
    simp only [Bool.false_and, Bool.false_eq_true, if_false, hscheduled, tailBound_schedule] at hb
    cases b with
    | none => exact absurd hb (tailBound_ne_none hm e _)
    | some b => exact ⟨b, hb, hle b rfl⟩
  · intro h e he
    obtain ⟨he, hhead⟩ := List.mem_filter.1 he
    unfold edgeEarliest
    simp only [Bool.false_and, Bool.false_eq_true, if_false]
    by_cases htail : (g.node e.tail).isMove = true
    · have hscheduled : ((g.schedule cycle).node e.tail).cycle = some (cycle e.tail) := if_pos htail
      obtain ⟨b, hb, hle⟩ := h e he (by simpa using hhead) htail
      rw [hscheduled]
      exact ⟨some b, hb, fun c hc => Option.some.inj hc ▸ hle⟩
    · have hunscheduled : ((g.schedule cycle).node e.tail).cycle = none := if_neg htail
      rw [hunscheduled]
      exact ⟨none, rfl, fun c hc => by cases hc⟩

theorem atLatest_iff (hmachine : g.machine = some m) (hm : m.triggerInvalidatesResults = false)
    (hheads : g.HeadsAreMoves) {cycle : N → Int} (hcycle : ∀ v, InSchedule (cycle v)) (u : N) :
    g.AtLatest ii cycle u ↔ ∀ e ∈ g.edges, e.tail = u →
      ∃ b, g.headBound m ii false e (cycle e.head) = .ok (some b) ∧ cycle u ≤ b := by
  have hlatest : (g.schedule cycle).latestCycle ii false false u =
      (g.schedule cycle).latestLoop m ii false false (g.outEdges u) intMax := by
    have htheMachine : (g.schedule cycle).theMachine = .ok m := by
      unfold theMachine
      change (match g.machine with | none => _ | some m => _) = _
      rw [hmachine]
    unfold latestCycle
    rw [htheMachine]
    rfl
  have hscheduled : ∀ e ∈ g.edges, ((g.schedule cycle).node e.head).cycle = some (cycle e.head) :=
    fun e he => if_pos (hheads e he)
  have hmax : cycle u ≤ intMax := by
    have := (hcycle u).2
    unfold intMax
    omega
  unfold AtLatest
  rw [hlatest, latestLoop_ge hm, and_iff_right hmax]
  · unfold outEdges
    constructor
    · intro h e he htail
      obtain ⟨b, hb, hle⟩ := h e (List.mem_filter.2 ⟨he, by simpa using htail⟩) _ (hscheduled e he)
      rw [headBound_schedule] at hb
      cases b with
      | none => exact absurd hb (headBound_ne_none hm e _)
      | some b => exact ⟨b, hb, hle b rfl⟩
    · intro h e he head hhead
      obtain ⟨he, htail⟩ := List.mem_filter.1 he
      rw [hscheduled e he] at hhead
      obtain ⟨b, hb, hle⟩ := h e he (by simpa using htail)
      rw [headBound_schedule, ← Option.some.inj hhead]
      exact ⟨some b, hb, fun c hc => Option.some.inj hc ▸ hle⟩
  · intro e he
    rw [hscheduled e (List.mem_filter.1 he).1]
    rfl

/-- The bounds top down and bottom up are dual when the latency of every
operation is the distance its results have bottom up, and each edge demands the
same in both directions only then. -/
theorem bounds_dual_iff (hmachine : g.machine = some m) (hm : m.triggerInvalidatesResults = false)
    (hheads : g.HeadsAreMoves) (hg : g.InRange m ii) (stack : Nat) :
    (∀ cycle : N → Int, (∀ v, InSchedule (cycle v)) →
      ((∀ v, (g.node v).isMove = true → g.AtEarliest ii (stack + 1) cycle v) ↔
        ∀ u, (g.node u).isMove = true → g.AtLatest ii cycle u)) ∧
      (∀ e ∈ g.edges, g.SameDistance m ii e) ↔ g.ResultLatenciesAgree m ii := by
  constructor
  · rintro ⟨_, hsame⟩ e he
    exact (sameDistance_iff hm hg he).1 (hsame e he)
  · intro h
    have hsame : ∀ e ∈ g.edges, g.SameDistance m ii e := fun e he => (sameDistance_iff hm hg he).2 (h e he)
    refine ⟨fun cycle hcycle => ⟨fun hearliest u hu => ?_, fun hlatest v hv => ?_⟩, hsame⟩
    · rw [atLatest_iff hmachine hm hheads hcycle]
      intro e he htail
      subst htail
      exact (hsame e he _ _ (hcycle _) (hcycle _)).1
        ((atEarliest_iff hmachine hm stack hcycle _).1 (hearliest e.head (hheads e he)) e he rfl hu)
    · rw [atEarliest_iff hmachine hm stack hcycle]
      intro e he hhead htail
      subst hhead
      exact (hsame e he _ _ (hcycle _) (hcycle _)).2
        ((atLatest_iff hmachine hm hheads hcycle _).1 (hlatest e.tail htail) e he rfl)

end duality

/-- The operand and the result of one operation, with the latency of the operation. -/
def multiply (latency : Nat) : DataDependenceGraph Bool Unit where
  node isResult :=
    { isMove := true
      guard := .unconditional
      sourceOperation := if isResult then some () else none
      destinationOperation := if isResult then none else some ()
      cycle := none }
  edges := [{
    edgeReason := .EDGE_OPERATION
    dependenceType := .DEP_UNKNOWN
    data := "MUL"
    guardUse := false
    certainAlias := false
    tailPseudo := false
    headPseudo := false
    loopDepth := 0
    tail := false
    head := true }]
  inputMoves _ := [false]
  outputMoves _ := [true]
  machine := some ⟨0, false, fun name => if name = "MUL" then some latency else none⟩

theorem multiply_inRange : (multiply 1).InRange ⟨0, false, fun name => if name = "MUL" then some 1 else none⟩ 0 where
  delaySlots := by decide
  guards v latency h := by
    cases v <;> cases h <;> decide
  operations e he := by
    rw [List.mem_singleton.1 he]
    decide
  loops e he := by
    rw [List.mem_singleton.1 he]
    decide

theorem bounds_dual_multiply :
    (∀ cycle : Bool → Int, (∀ v, InSchedule (cycle v)) →
      ((∀ v, ((multiply 1).node v).isMove = true → (multiply 1).AtEarliest 0 1 cycle v) ↔
        ∀ u, ((multiply 1).node u).isMove = true → (multiply 1).AtLatest 0 cycle u)) ∧
      ∀ e ∈ (multiply 1).edges,
        (multiply 1).SameDistance ⟨0, false, fun name => if name = "MUL" then some 1 else none⟩ 0 e := by
  refine (bounds_dual_iff rfl rfl ?_ multiply_inRange 0).2 ?_
  · exact fun _ _ => rfl
  · intro e he _ _
    rw [List.mem_singleton.1 he]
    rfl

/-- The operand in cycle 0, and the read of the result in the cycle after it. -/
def nextCycle (isResult : Bool) : Int := if isResult then 1 else 0

/-- A result read in the cycle after the trigger is legal bottom up, whatever the latency. -/
theorem bounds_not_dual :
    ¬ ((∀ v, ((multiply 3).node v).isMove = true → (multiply 3).AtEarliest 0 1 nextCycle v) ↔
      ∀ u, ((multiply 3).node u).isMove = true → (multiply 3).AtLatest 0 nextCycle u) := by
  intro h
  have hlatest : ∀ u, ((multiply 3).node u).isMove = true → (multiply 3).AtLatest 0 nextCycle u := by
    intro u _
    cases u with
    | false => exact ⟨0, rfl, by decide⟩
    | true => exact ⟨intMax, rfl, by decide⟩
  obtain ⟨c, hc, hle⟩ := h.2 hlatest true rfl
  have hthree : ((multiply 3).schedule nextCycle).earliestCycle 0 1 {} true = .ok 3 := by decide +kernel
  rw [← Except.ok.inj (hthree.symm.trans hc)] at hle
  exact absurd hle (by decide)

end DataDependenceGraph

end Tce.DDG
