import Tce.ResourceManager.DirectorSearch

/-!
# Failed assignments

`assign` records what the move of the node is at first and places the node before
it searches for resources. An exception of the search leaves both behind, and a
later assignment keeps what is recorded.
-/

namespace Tce.BrokerDirector

open ResourceManager (BrokerError)
open Backtracking

/-- What is recorded of a move: its terminals, its bus and its guard. -/
structure Move (T B G : Type) where
  source : T
  destination : T
  bus : B
  guard : Option G

/-- How a call ends. An exception leaves what has changed until then. -/
inductive Outcome (S : Type)
  | returned (s : S)
  | thrown (e : BrokerError) (s : S)
  | aborted

/-- The plan and what the director keeps between the calls. -/
structure Managed (N : Type) (n : Nat) (σ M R : Type) where
  plan : Plan N n σ M R
  known : Known
  origResMap : N → Option M

variable {N : Type} {n : Nat} {σ M R T B G : Type}

/-- What is left behind, if anything, satisfies `P`. -/
def Outcome.All {S : Type} (P : S → Prop) : Outcome S → Prop
  | .returned s => P s
  | .thrown _ s => P s
  | .aborted => True

/-- The result with nothing of what is left behind by an exception. -/
def Outcome.forget : Outcome (Managed N n σ M R) → Except BrokerError (Known × Plan N n σ M R)
  | .returned m => .ok (m.known, m.plan)
  | .thrown e _ => .error e
  | .aborted => .error .aborted

namespace SimpleBrokerDirector
variable (director : SimpleBrokerDirector n σ M R) (node : N) (cycle : Int)

/-! ## Assignments -/

/-- A round of the search, which may end with a plan that has no more resources to try. -/
def searchRound : Plan N n σ M R → Except BrokerError (Plan N n σ M R ⊕ Plan N n σ M R) ⊕ Plan N n σ M R :=
  Plan.round director.broker node cycle (fun p => .ok (.inl p))
    fun k p => (Plan.tryNextAssignment director.broker cycle k p).map .inr

/-- The rounds have no other exceptions. -/
def search (fuel : Nat) (p : Plan N n σ M R) : Option (Outcome (Plan N n σ M R)) :=
  (loop (director.searchRound node cycle) fuel p).map fun r => match r with
    | .error _ => .aborted
    | .ok (.inl p) => .thrown (.moduleRunTimeError "No resource assignment found for ") p
    | .ok (.inr p) => .returned p

/-- The node is placed before the brokers are asked whether they are applicable. -/
def request (p : Plan N n σ M R) : Outcome (Plan N n σ M R) :=
  match Plan.setCycle cycle p.state with
  | .error e => .thrown e p
  | .ok state =>
    match Plan.setRequest director.broker cycle p with
    | .error e => .thrown e { p with state := state, applicableAssignments := [], currentBroker := 0 }
    | .ok q => .returned q

def searched (fuel : Nat) (p : Plan N n σ M R) [DecidableEq N] : Option (Outcome (Plan N n σ M R)) :=
  match Plan.tryCachedAssignment director.broker node cycle p with
  | .error e => some (.thrown e p)
  | .ok (p, success) =>
    match director.request cycle p with
    | .returned q => if success then some (.returned q) else director.search node cycle fuel q
    | other => some other

/-- An entry that is there already is kept. -/
def insertOriginal [DecidableEq N] (m : Managed N n σ M R) : N → Option M :=
  Function.update m.origResMap node (some ((m.origResMap node).getD m.plan.state.node.move))

/-- The bounds and the count are changed when the search is over. -/
def finish (m : Managed N n σ M R) : Outcome (Plan N n σ M R) → Outcome (Managed N n σ M R)
  | .returned q =>
    match director.assigned m.known cycle q.state with
    | .error _ => .aborted
    | .ok known => .returned { m with plan := q, known := known }
  | .thrown e q => .thrown e { m with plan := q }
  | .aborted => .aborted

/-- Calls that are refused before anything is changed. -/
def refused (cycle : Int) (placed : Option Int) : Option BrokerError :=
  if cycle < 0 then some (.invalidData "Negative cycles not supported by RM")
  else if cycle = INT_MAX then some (.invalidData "INT_MAX cycle not supported by RM")
  else if placed.any (· != cycle) then
    some (.invalidData "Node is already placed in a cycle different from given cycle.")
  else none

/-- `assign` with what it leaves behind; `none` is a search that is not over after `fuel` rounds. -/
def assignManaged [DecidableEq N] (fuel : Nat) (m : Managed N n σ M R) : Option (Outcome (Managed N n σ M R)) :=
  match refused cycle m.plan.state.node.cycle with
  | some e => some (.thrown e m)
  | none => (director.searched node cycle fuel m.plan).map
      (director.finish cycle { m with origResMap := insertOriginal node m })

/-! ## Rounds of the search -/

variable {director node cycle}

/-- The plan of a round that goes on, or of its end, has the node in this cycle. -/
def Ends (placed : Option Int) (r : Except BrokerError (Plan N n σ M R ⊕ Plan N n σ M R)) : Prop :=
  match r with
  | .error e => e = .aborted
  | .ok q => (q.elim id id).state.node.cycle = placed

variable (director node cycle) in
theorem isTestedAssignmentPossible_spec (k : Fin n) (p : Plan N n σ M R) :
    (∃ b q, Plan.isTestedAssignmentPossible director.broker node cycle k p = .ok (b, q) ∧ q.state = p.state ∧
      q.applicableAssignments = p.applicableAssignments ∧ q.currentBroker = p.currentBroker ∧
      (b = true → ∃ resource, (q.pending k).availableResources[(q.pending k).next]? = some resource)) ∨
    Plan.isTestedAssignmentPossible director.broker node cycle k p = .error .aborted := by
  unfold Plan.isTestedAssignmentPossible
  dsimp only
  generalize Plan.asked director.broker cycle k p = pending
  split
  · next hlt =>
    have hresource : ∃ resource, (Function.update p.pending k pending k).availableResources[
        (Function.update p.pending k pending k).next]? = some resource := by
      rw [Function.update_self]
      exact ⟨_, List.getElem?_eq_getElem hlt⟩
    split
    · split
      · exact .inl ⟨_, _, rfl, rfl, rfl, rfl, fun _ => hresource⟩
      · exact .inr rfl
    · exact .inl ⟨_, _, rfl, rfl, rfl, rfl, fun _ => hresource⟩
  · exact .inl ⟨_, _, rfl, rfl, rfl, rfl, fun h => absurd h Bool.false_ne_true⟩

theorem undo_cycle (k : Fin n) (s : State n σ M) :
    (Plan.undo director.broker cycle k s).node.cycle = s.node.cycle := by
  unfold Plan.undo
  split <;> rfl

variable (director cycle) in
theorem tryNextAssignment_spec {k : Fin n} {p : Plan N n σ M R} {resource : R}
    (h : (p.pending k).availableResources[(p.pending k).next]? = some resource) :
    ∃ q, Plan.tryNextAssignment director.broker cycle k p = .ok q ∧ q.state.node.cycle = p.state.node.cycle ∧
      q.applicableAssignments = p.applicableAssignments ∧ q.currentBroker = p.currentBroker := by
  unfold Plan.tryNextAssignment
  rw [h]
  refine ⟨_, rfl, ?_, rfl, rfl⟩
  dsimp only
  split <;> rfl

variable (director cycle) in
theorem backtrack_spec (k : Fin n) {p : Plan N n σ M R} (h : p.currentBroker ≠ 0) :
    (∃ q, Plan.backtrack director.broker cycle k p = .ok q ∧ q.state.node.cycle = p.state.node.cycle) ∨
      Plan.backtrack director.broker cycle k p = .error .aborted := by
  unfold Plan.backtrack
  split
  · exact absurd ‹_› h
  · split
    · refine .inl ⟨_, rfl, ?_⟩
      dsimp only
      rw [undo_cycle, undo_cycle, undo_cycle]
    · exact .inr rfl

variable (director node cycle) in
/-- The rounds leave the node in its cycle. -/
theorem searchRound_spec (p : Plan N n σ M R) :
    (∃ q, director.searchRound node cycle p = .inr q ∧ q.state.node.cycle = p.state.node.cycle) ∨
      ∃ r, director.searchRound node cycle p = .inl r ∧ Ends p.state.node.cycle r := by
  unfold searchRound Plan.round
  split
  · exact .inr ⟨_, rfl, rfl⟩
  · next k hk =>
    obtain ⟨b, q, htested, hstate, happlicable, hcurrent, hresource⟩ | htested :=
      director.isTestedAssignmentPossible_spec node cycle k p
    · rw [htested]
      have hplaced : q.state.node.cycle = p.state.node.cycle := by rw [hstate]
      cases b with
      | false =>
        dsimp only
        split
        · exact .inr ⟨_, rfl, hplaced⟩
        · next hne =>
          obtain ⟨q', hback, hcycle⟩ | hback := director.backtrack_spec cycle k hne
          · rw [hback]
            exact .inl ⟨q', rfl, hcycle.trans hplaced⟩
          · rw [hback]
            exact .inr ⟨_, rfl, rfl⟩
      | true =>
        obtain ⟨resource, hresource⟩ := hresource rfl
        obtain ⟨q', hnext, hcycle, happlicable', hcurrent'⟩ :=
          director.tryNextAssignment_spec cycle hresource
        dsimp only
        rw [hnext]
        split
        · exact .inr ⟨_, rfl, hcycle.trans hplaced⟩
        · next hne =>
          have hlt : q'.currentBroker + 1 < q'.applicableAssignments.length := by
            have := (List.getElem?_eq_some_iff.1 hk).1
            rw [happlicable', hcurrent', happlicable, hcurrent]
            rw [happlicable, hcurrent] at hne
            omega
          left
          refine ⟨{ q' with currentBroker := q'.currentBroker + 1 }, ?_, hcycle.trans hplaced⟩
          dsimp only [bind, Except.bind]
          rw [Plan.advance, if_pos hlt]
          rfl
    · rw [htested]
      exact .inr ⟨_, rfl, rfl⟩

theorem search_ends {fuel : Nat} {p : Plan N n σ M R} {r : Except BrokerError (Plan N n σ M R ⊕ Plan N n σ M R)}
    (h : loop (director.searchRound node cycle) fuel p = some r) : Ends p.state.node.cycle r := by
  refine loop_ends (I := fun q => q.state.node.cycle = p.state.node.cycle) ?_ ?_ rfl h
  · intro s s' hs hround
    obtain ⟨q, hround', hcycle⟩ | ⟨r, hround', -⟩ := director.searchRound_spec node cycle s
    · cases hround.symm.trans hround'
      exact hcycle.trans hs
    · cases hround.symm.trans hround'
  · intro s t hs hround
    obtain ⟨q, hround', -⟩ | ⟨r, hround', hr⟩ := director.searchRound_spec node cycle s
    · cases hround.symm.trans hround'
    · cases hround.symm.trans hround'
      rw [← hs]
      exact hr

theorem search_spec {fuel : Nat} {p : Plan N n σ M R} {o : Outcome (Plan N n σ M R)}
    (h : director.search node cycle fuel p = some o) :
    Outcome.All (fun q => q.state.node.cycle = p.state.node.cycle) o := by
  obtain ⟨r, hloop, rfl⟩ := Option.map_eq_some_iff.1 h
  have hends := search_ends hloop
  obtain e | (q | q) := r
  · trivial
  · exact hends
  · exact hends

theorem refused_none {placed : Option Int} (h : refused cycle placed = none) :
    (placed = none ∨ placed = some cycle) ∧ refused cycle none = none ∧ refused cycle (some cycle) = none := by
  unfold refused at h ⊢
  split at h
  · cases h
  · next hnonneg =>
    split at h
    · cases h
    · next hne =>
      split at h
      · cases h
      · next hplaced =>
        refine ⟨?_, ?_, ?_⟩
        · cases placed with
          | none => exact .inl rfl
          | some c =>
            right
            simpa using hplaced
        · rw [if_neg hnonneg, if_neg hne]
          rfl
        · rw [if_neg hnonneg, if_neg hne]
          simp

theorem setCycle_placed {s : State n σ M} (h : refused cycle s.node.cycle = none) :
    Plan.setCycle cycle s = .ok (Plan.placed cycle s) := Plan.setCycle_eq (refused_none h).1

variable (director) in
/-- The node is placed even if no broker is applicable. -/
theorem request_spec {p : Plan N n σ M R} (h : refused cycle p.state.node.cycle = none) :
    Outcome.All (fun q => q.state.node.cycle = some cycle) (director.request cycle p) := by
  unfold request
  rw [setCycle_placed h]
  dsimp only
  cases hrequest : Plan.setRequest director.broker cycle p with
  | error e => rfl
  | ok q =>
    unfold Plan.setRequest at hrequest
    rw [setCycle_placed h] at hrequest
    dsimp only [bind, Except.bind] at hrequest
    split at hrequest
    · cases hrequest
    · cases hrequest
      rfl

variable (director cycle) in
theorem assignCached_cycle (cached : List (Fin n × R)) (assigned : List (Fin n)) (s : State n σ M) :
    (Plan.assignCached director.broker cycle cached assigned s).1.node.cycle = s.node.cycle ∨
      (Plan.assignCached director.broker cycle cached assigned s).1.node.cycle = none := by
  induction cached generalizing assigned s with
  | nil => exact .inl rfl
  | cons choice cached ih =>
    obtain ⟨k, resource⟩ := choice
    unfold Plan.assignCached
    split
    · exact ih (k :: assigned) (Plan.assign director.broker cycle k resource s)
    · exact .inr rfl

variable (director node) in
/-- The node stays where it can be placed. -/
theorem tryCachedAssignment_spec [DecidableEq N] {p : Plan N n σ M R}
    (h : refused cycle p.state.node.cycle = none) :
    ∃ q b, Plan.tryCachedAssignment director.broker node cycle p = .ok (q, b) ∧
      refused cycle q.state.node.cycle = none := by
  obtain ⟨-, hunplaced, hplaced⟩ := refused_none h
  unfold Plan.tryCachedAssignment
  split
  · exact ⟨_, _, rfl, h⟩
  · split
    · exact ⟨_, _, rfl, h⟩
    · rw [setCycle_placed h]
      refine ⟨_, _, rfl, ?_⟩
      dsimp only
      rcases director.assignCached_cycle cycle p.cache.lastTestedWorkingAssignment [] (Plan.placed cycle p.state)
        with heq | heq
      · rw [heq]
        exact hplaced
      · rw [heq]
        exact hunplaced

/-- However the search ends, the node is in the cycle. -/
theorem searched_spec [DecidableEq N] {fuel : Nat} {p : Plan N n σ M R} {o : Outcome (Plan N n σ M R)}
    (hrefused : refused cycle p.state.node.cycle = none) (h : director.searched node cycle fuel p = some o) :
    Outcome.All (fun q => q.state.node.cycle = some cycle) o := by
  unfold searched at h
  obtain ⟨q, success, hcached, hrefused'⟩ :=
    director.tryCachedAssignment_spec node hrefused
  rw [hcached] at h
  dsimp only at h
  have hrequest := director.request_spec hrefused'
  cases hreq : director.request cycle q with
  | returned q' =>
    rw [hreq] at h hrequest
    dsimp only at h
    split at h
    · cases h
      exact hrequest
    · have hsearch := search_spec h
      have hcycle : q'.state.node.cycle = some cycle := hrequest
      rw [hcycle] at hsearch
      exact hsearch
  | thrown e q' =>
    rw [hreq] at h hrequest
    cases h
    exact hrequest
  | aborted =>
    rw [hreq] at h
    cases h
    trivial

/-- An assignment that was not refused leaves the node in the cycle and an entry for it. -/
theorem assignManaged_spec [DecidableEq N] {fuel : Nat} {m : Managed N n σ M R} {o : Outcome (Managed N n σ M R)}
    (hrefused : refused cycle m.plan.state.node.cycle = none)
    (h : director.assignManaged node cycle fuel m = some o) :
    Outcome.All (fun a => a.plan.state.node.cycle = some cycle ∧ a.origResMap = insertOriginal node m) o := by
  unfold assignManaged at h
  rw [hrefused] at h
  obtain ⟨p, hsearched, rfl⟩ := Option.map_eq_some_iff.1 h
  have hplaced := searched_spec hrefused hsearched
  cases p with
  | returned q =>
    unfold finish
    dsimp only
    cases director.assigned m.known cycle q.state with
    | error e => trivial
    | ok known => exact ⟨hplaced, rfl⟩
  | thrown e q => exact ⟨hplaced, rfl⟩
  | aborted => trivial

/-! ## The result of an assignment -/

theorem assignRound_eq (p : Plan N n σ M R) :
    Plan.assignRound director.broker node cycle p = (director.searchRound node cycle p).map (fun r => match r with
      | .error e => .error e
      | .ok (.inl _) => .error (.moduleRunTimeError "No resource assignment found for ")
      | .ok (.inr q) => .ok q) id := by
  unfold Plan.assignRound searchRound Plan.round
  split
  · rfl
  · split
    · rfl
    · split
      · rfl
      · cases Plan.backtrack director.broker cycle _ _ <;> rfl
    · split
      · dsimp only [Sum.map_inl]
        cases Plan.tryNextAssignment director.broker cycle _ _ <;> rfl
      · cases Plan.tryNextAssignment director.broker cycle _ _ >>= Plan.advance <;> rfl

theorem search_eq (fuel : Nat) (p : Plan N n σ M R) :
    loop (Plan.assignRound director.broker node cycle) fuel p =
      (director.search node cycle fuel p).map fun o => match o with
        | .returned q => .ok q
        | .thrown e _ => .error e
        | .aborted => .error .aborted := by
  rw [loop_map assignRound_eq, search, Option.map_map]
  cases hloop : loop (director.searchRound node cycle) fuel p with
  | none => rfl
  | some r =>
    obtain e | (q | q) := r
    · have haborted : e = .aborted := by
        have hends : Ends p.state.node.cycle (.error e) := search_ends hloop
        exact hends
      subst haborted
      rfl
    · rfl
    · rfl

theorem assigned_error {known : Known} {s : State n σ M} {e : BrokerError}
    (h : director.assigned known cycle s = .error e) : e = .aborted := by
  have hite {c : Prop} [Decidable c] {k : Known}
      (h : (if c then .error .aborted else .ok k : Except BrokerError Known) = .error e) : e = .aborted := by
    split at h
    · cases h
      rfl
    · cases h
  exact hite h

/-- The calls end as `assign` does. -/
theorem assign_eq [DecidableEq N] (fuel : Nat) (m : Managed N n σ M R) :
    director.assign m.known fuel node cycle m.plan =
      (director.assignManaged node cycle fuel m).map Outcome.forget := by
  unfold assign assignManaged refused
  split
  · rfl
  · split
    · rfl
    · split
      · rfl
      · next hnonneg hne hplaced =>
        have hrefused : refused cycle m.plan.state.node.cycle = none := by
          unfold refused
          rw [if_neg hnonneg, if_neg hne, if_neg hplaced]
        obtain ⟨p, success, hcached, hrefused'⟩ :=
          director.tryCachedAssignment_spec node hrefused
        dsimp only
        unfold searched request
        rw [hcached]
        dsimp only [bind, Except.bind]
        rw [setCycle_placed hrefused']
        dsimp only
        have hfinish (q : Plan N n σ M R) : Outcome.forget (director.finish cycle
            { m with origResMap := insertOriginal node m } (.returned q)) =
            (director.assigned m.known cycle q.state).map fun known => (known, q) := by
          unfold finish
          dsimp only
          cases hassigned : director.assigned m.known cycle q.state with
          | error e =>
            rw [assigned_error hassigned]
            rfl
          | ok known => rfl
        cases hrequest : Plan.setRequest director.broker cycle p with
        | error e => rfl
        | ok q =>
          dsimp only [pure, Except.pure]
          cases success with
          | true =>
            rw [if_pos rfl, Option.map_some, Option.map_some, Option.map_some, hfinish]
            dsimp only
            cases director.assigned m.known cycle q.state <;> rfl
          | false =>
            rw [if_neg Bool.false_ne_true]
            dsimp only
            rw [search_eq, Option.map_map, Option.map_map]
            congr 1
            funext o
            cases o with
            | returned q =>
              dsimp only [Function.comp]
              rw [hfinish]
              cases director.assigned m.known cycle q.state <;> rfl
            | thrown e q => rfl
            | aborted => rfl

/-! ## Removals -/

variable (director) in
/-- `resetAssignments` of a node: every broker that is applicable takes back what it has assigned. -/
def resetNode (s : State n σ M) : State n σ M :=
  let s := (List.finRange n).foldl
    (fun s k => if (director.broker k).isApplicable s.node.move then Plan.unassign director.broker k s else s) s
  { s with node := { s.node with cycle := none } }

/-- The move with what was recorded. Registers are left as they are, and the guard is if there was none. -/
def restored (isGPR : T → Bool) (original move : Move T B G) : Move T B G where
  source := if isGPR move.source then move.source else original.source
  destination := if isGPR move.destination then move.destination else original.destination
  bus := original.bus
  guard := original.guard.or move.guard

/-- `unassign`, but for the bounds of the cycles. -/
def unassignManaged [DecidableEq N] (director : SimpleBrokerDirector n σ (Move T B G) R) (isGPR : T → Bool) (node : N)
    (m : Managed N n σ (Move T B G) R) : Outcome (Managed N n σ (Move T B G) R) :=
  match m.plan.state.node.cycle with
  | none => .thrown (.invalidData "Node  is not placed in any cycle.") m
  | some placed =>
    let index := director.instructionIndex placed
    let counts := Function.update m.known.moveCounts index (some ((m.known.moveCounts index).getD 0 - 1))
    let s := director.resetNode m.plan.state
    match m.origResMap node with
    | none => .aborted
    | some original =>
      let moveNode : Node (Move T B G) := { s.node with move := restored isGPR original s.node.move }
      .returned ⟨{ m.plan with state := { s with node := moveNode }, cache := Plan.clearCache },
        { m.known with moveCounts := counts }, Function.update m.origResMap node none⟩

/-! ## Atomicity -/

/-- Nothing is left behind: the director and the node are as before, the node is not in the cycle, no broker
has assigned it and there is no entry for it. When it is assigned later then what it has at that time is restored. -/
structure LeavesNothing [DecidableEq N] (director : SimpleBrokerDirector n σ (Move T B G) R) (isGPR : T → Bool)
    (node : N) (cycle : Int) (m a : Managed N n σ (Move T B G) R) : Prop where
  state : a.plan.state = m.plan.state
  known : a.known = m.known
  origResMap : a.origResMap = m.origResMap
  unplaced : a.plan.state.node.cycle ≠ some cycle
  unassigned : ∀ k, Plan.isAlreadyAssigned director.broker cycle k a.plan.state = false
  noEntry : a.origResMap node = none
  restores : ∀ (fuel : Nat) (later : Int) (l b : Managed N n σ (Move T B G) R), l.origResMap node = a.origResMap node →
    director.assignManaged node later fuel l = some (.returned b) →
    ∃ u, director.unassignManaged isGPR node b = .returned u ∧
      u.plan.state.node.move = restored isGPR l.plan.state.node.move (director.resetNode b.plan.state).node.move

def FailsAtomically [DecidableEq N] (director : SimpleBrokerDirector n σ (Move T B G) R) (isGPR : T → Bool)
    (node : N) (cycle : Int) (m : Managed N n σ (Move T B G) R) : Prop :=
  ∃ fuel e a, director.assignManaged node cycle fuel m = some (.thrown e a) ∧
    director.LeavesNothing isGPR node cycle m a

theorem assignManaged_returned [DecidableEq N] {fuel : Nat} {m a : Managed N n σ M R}
    (h : director.assignManaged node cycle fuel m = some (.returned a)) :
    a.plan.state.node.cycle = some cycle ∧ a.origResMap = insertOriginal node m := by
  cases hrefused : refused cycle m.plan.state.node.cycle with
  | none => exact assignManaged_spec hrefused h
  | some e =>
    unfold assignManaged at h
    rw [hrefused] at h
    cases h

/-- What is restored is the entry that was there before the assignment, if any. -/
theorem unassign_assign [DecidableEq N] {director : SimpleBrokerDirector n σ (Move T B G) R} (isGPR : T → Bool)
    {fuel : Nat} {m a : Managed N n σ (Move T B G) R}
    (h : director.assignManaged node cycle fuel m = some (.returned a)) :
    ∃ u, director.unassignManaged isGPR node a = .returned u ∧ u.plan.state.node.move =
      restored isGPR ((m.origResMap node).getD m.plan.state.node.move) (director.resetNode a.plan.state).node.move := by
  obtain ⟨hplaced, horiginal⟩ := assignManaged_returned h
  have hentry : a.origResMap node = some ((m.origResMap node).getD m.plan.state.node.move) := by
    rw [horiginal]
    exact Function.update_self _ _ _
  unfold unassignManaged
  rw [hplaced]
  dsimp only
  rw [hentry]
  exact ⟨_, rfl, rfl⟩

theorem refused_iff {placed : Option Int} :
    refused cycle placed ≠ none ↔ cycle < 0 ∨ cycle = INT_MAX ∨ ∃ other, placed = some other ∧ other ≠ cycle := by
  unfold refused
  split
  · next hneg => exact iff_of_true nofun (.inl hneg)
  · next hnonneg =>
    split
    · next hmax => exact iff_of_true nofun (.inr (.inl hmax))
    · next hne =>
      rw [or_iff_right hnonneg, or_iff_right hne]
      cases placed with
      | none => simp
      | some other => simp

/-- **A failed assignment leaves nothing behind** exactly if it is refused before anything is changed, and nothing
was there before. -/
theorem failsAtomically_iff [DecidableEq N] {director : SimpleBrokerDirector n σ (Move T B G) R} {isGPR : T → Bool}
    {m : Managed N n σ (Move T B G) R} : director.FailsAtomically isGPR node cycle m ↔
      (cycle < 0 ∨ cycle = INT_MAX ∨ ∃ other, m.plan.state.node.cycle = some other ∧ other ≠ cycle) ∧
        m.plan.state.node.cycle ≠ some cycle ∧
        (∀ k, Plan.isAlreadyAssigned director.broker cycle k m.plan.state = false) ∧ m.origResMap node = none := by
  rw [← refused_iff]
  constructor
  · rintro ⟨fuel, e, a, h, hleaves⟩
    cases hrefused : refused cycle m.plan.state.node.cycle with
    | none =>
      -- the entry is there already
      obtain ⟨-, horiginal⟩ := assignManaged_spec hrefused h
      have hnone := hleaves.noEntry
      rw [horiginal, insertOriginal, Function.update_self] at hnone
      cases hnone
    | some e' =>
      refine ⟨nofun, ?_, ?_, ?_⟩
      · exact hleaves.state ▸ hleaves.unplaced
      · exact hleaves.state ▸ hleaves.unassigned
      · exact hleaves.origResMap ▸ hleaves.noEntry
  · rintro ⟨hrefused, hunplaced, hunassigned, hnone⟩
    obtain ⟨e, he⟩ := Option.ne_none_iff_exists'.1 hrefused
    refine ⟨0, e, m, ?_, rfl, rfl, rfl, hunplaced, hunassigned, hnone, fun fuel later l b hl hb => ?_⟩
    · unfold assignManaged
      rw [he]
    · obtain ⟨u, hu, hmove⟩ := unassign_assign isGPR hb
      rw [hl, hnone] at hmove
      exact ⟨u, hu, hmove⟩

/-! ## A node without resources -/

/-- The only broker has no resource at all. -/
def bare : SimpleBrokerDirector 1 Unit (Move Bool Unit Unit) Unit where
  broker _ := {
    isApplicable := fun _ => true
    isAlreadyAssigned := fun _ _ _ => false
    allAvailableResources := fun _ _ _ => []
    isAvailable := fun _ _ _ _ => false
    assign := fun _ _ s node => (s, node.move)
    unassign := fun s node => (s, node.move) }
  busCount := 1
  initiationInterval := 0
  isAssigned _ := false
  guardLatency _ := 0
  immediateWriteCycle _ _ := none

def unplacedNode : Managed Unit 1 Unit (Move Bool Unit Unit) Unit where
  plan := {
    state := ⟨fun _ => (), ⟨⟨false, false, (), none⟩, none⟩⟩
    applicableAssignments := []
    pending := fun _ => ⟨none, []⟩
    currentBroker := 0
    cache := Plan.clearCache }
  known := ⟨-1, none, fun _ => none⟩
  origResMap _ := none

/-- There is no assignment for the node, and the call that fails leaves it in the cycle. -/
theorem not_failsAtomically_bare : ¬ bare.HasChoice 0 unplacedNode.plan.state ∧
    ¬ bare.FailsAtomically (fun _ => false) () 0 unplacedNode := by
  constructor
  · rintro ⟨path, hpath, hlength⟩
    cases hpath with
    | nil => exact absurd hlength (by decide)
    | cons hmem _ => exact List.not_mem_nil hmem
  · rintro ⟨fuel, e, a, h, hleaves⟩
    obtain ⟨hplaced, -⟩ := assignManaged_spec (by decide) h
    exact hleaves.unplaced hplaced

end SimpleBrokerDirector

end Tce.BrokerDirector
