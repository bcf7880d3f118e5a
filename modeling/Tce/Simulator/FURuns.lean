import Tce.Simulator.MultiLatencyExecutor

/-!
# Runs of function units

A unit that skips the executors with nothing in flight, and one that advances
the clock of every executor in every cycle: whatever is triggered, their ports
have the same values, and the operations in flight are of the same age.
-/

namespace Tce.Simulator

/-- The executors that the machine state is built with. -/
inductive ExecutorKind (P V Ctx D ε : Type) where
  | oneCycle (op : HWOperation P V Ctx ε)
  | simple (op : HWOperation P V Ctx ε)
  | multiLatency (op : HWOperation P V Ctx ε)
  | conflictDetecting (op : HWOperation P V Ctx ε) (issueOperation : D → Bool × D) (throwWhenConflict : Bool)

namespace ExecutorKind
variable {P V Ctx D ε : Type}

def hwOperation : ExecutorKind P V Ctx D ε → HWOperation P V Ctx ε
  | oneCycle op => op
  | simple op => op
  | multiLatency op => op
  | conflictDetecting op _ _ => op

def State : ExecutorKind P V Ctx D ε → Type
  | oneCycle _ => OneCycleState
  | simple op => SimpleState op
  | multiLatency op => MultiLatencyState op
  | conflictDetecting op _ _ => MultiLatencyState op

/-- An executor as its constructor makes it. -/
def create : ∀ kind : ExecutorKind P V Ctx D ε, kind.State
  | oneCycle _ => ⟨false, false⟩
  | simple op => SimpleState.create op
  | multiLatency op => MultiLatencyState.create op
  | conflictDetecting op _ _ => MultiLatencyState.create op

/-- The results of the trigger `age` clock advances ago, if it is in flight. -/
def inFlight : ∀ kind : ExecutorKind P V Ctx D ε, kind.State → Nat → Option (Fin kind.hwOperation.numberOfOutputs → V)
  | oneCycle _, _, _ => none
  | simple op, s, age => if age < op.latency then SimpleState.inFlight s (SimpleState.slot s age) else none
  | multiLatency op, s, age => @MultiLatencyState.inFlight _ _ _ _ op s age
  | conflictDetecting op _ _, s, age => @MultiLatencyState.inFlight _ _ _ _ op s age

variable [DecidableEq P]

def clocked : ∀ kind : ExecutorKind P V Ctx D ε, Clocked kind.State (Env P V Ctx D) (FUFault ε)
  | oneCycle op => Simulator.oneCycle op
  | simple op => Simulator.simple op
  | multiLatency op => Simulator.multiLatency op
  | conflictDetecting op issueOperation throwWhenConflict =>
    Simulator.conflictDetecting op issueOperation throwWhenConflict

/-- What an executor does does not depend on what its storage has held before.
Operations of one cycle have no storage but the ports. -/
def WritesOutputs : ExecutorKind P V Ctx D ε → Prop
  | oneCycle _ => True
  | kind => kind.hwOperation.WritesOutputs

/-- The states of the abstract executor. -/
def Abstract : ExecutorKind P V Ctx D ε → Type
  | oneCycle _ => Unit
  | simple op => Line op
  | multiLatency op => Stages op
  | conflictDetecting op _ _ => Stages op

def component : ∀ kind : ExecutorKind P V Ctx D ε, kind.WritesOutputs → Component kind.clocked kind.Abstract
  | oneCycle op, _ => oneCycleComponent op
  | simple op, h => simpleComponent op h
  | multiLatency op, h => multiLatencyComponent op h
  | conflictDetecting op issueOperation throwWhenConflict, h =>
    conflictDetectingComponent op h issueOperation throwWhenConflict

/-- At first nothing is in flight. -/
theorem create_rel (kind : ExecutorKind P V Ctx D ε) (h : kind.WritesOutputs) :
    ∃ a, (kind.component h).Rel kind.create a ∧ (kind.component h).Ready a ∧ (kind.component h).Idle a := by
  cases kind with
  | oneCycle op => exact ⟨(), trivial, trivial, trivial⟩
  | simple op => exact ⟨fun _ => none, SimpleState.holds_create, rfl, fun _ => rfl⟩
  | multiLatency op => exact ⟨⟨none, fun _ => none⟩, MultiLatencyState.holds_create, rfl, rfl, fun _ => rfl⟩
  | conflictDetecting op issueOperation throwWhenConflict =>
    exact ⟨⟨none, fun _ => none⟩, MultiLatencyState.holds_create, rfl, rfl, fun _ => rfl⟩

/-- What is in flight is said by the abstract state alone. -/
theorem inFlight_eq {kind : ExecutorKind P V Ctx D ε} {h : kind.WritesOutputs} {s t : kind.State} {a : kind.Abstract}
    (hs : (kind.component h).Rel s a) (ht : (kind.component h).Rel t a) (hready : (kind.component h).Ready a) (age : Nat) :
    kind.inFlight s age = kind.inFlight t age := by
  cases kind with
  | oneCycle op => rfl
  | simple op =>
    have hcell {u : SimpleState op} (hu : u.Holds a) :
        (simple op : ExecutorKind P V Ctx D ε).inFlight u age = if age < op.latency then a age else none := by
      by_cases hage : age < op.latency
      · rw [if_pos hage, hu.cells age hage]
        exact if_pos hage
      · rw [if_neg hage]
        exact if_neg hage
    exact (hcell hs).trans (hcell ht).symm
  | multiLatency op =>
    exact (MultiLatencyState.inFlight_eq hs hready age).trans (MultiLatencyState.inFlight_eq ht hready age).symm
  | conflictDetecting op issueOperation throwWhenConflict =>
    exact (MultiLatencyState.inFlight_eq hs hready age).trans (MultiLatencyState.inFlight_eq ht hready age).symm

end ExecutorKind

section runs
variable {P V Ctx D ε : Type} [DecidableEq P] {n : Nat}

/-- A unit with these executors runs the cycles. -/
def runUnit (kinds : Fin n → ExecutorKind P V Ctx D ε) (context : ContextClock (Env P V Ctx D)) (env : Env P V Ctx D)
    (cycles : List (FUState.Cycle n (Env P V Ctx D))) :
    Except (FUFault ε) (FUState (fun k => (kinds k).State) (Env P V Ctx D)) :=
  FUState.run (fun k => (kinds k).clocked) (FUState.advanceClock (fun k => (kinds k).clocked) context)
    (FUState.create (fun k => (kinds k).create) env) cycles

/-- The plain simulation of the cycles. -/
def runAll (kinds : Fin n → ExecutorKind P V Ctx D ε) (context : ContextClock (Env P V Ctx D)) (env : Env P V Ctx D)
    (cycles : List (FUState.Cycle n (Env P V Ctx D))) :
    Except (FUFault ε) (FUState (fun k => (kinds k).State) (Env P V Ctx D)) :=
  FUState.run (fun k => (kinds k).clocked) (FUState.advanceAll (fun k => (kinds k).clocked) context)
    (FUState.create (fun k => (kinds k).create) env) cycles

/-- The same error; or the same ports, context and detector, and the same
results in flight, each with the same number of clock advances behind it. -/
def SameResults (kinds : Fin n → ExecutorKind P V Ctx D ε) :
    Except (FUFault ε) (FUState (fun k => (kinds k).State) (Env P V Ctx D)) →
    Except (FUFault ε) (FUState (fun k => (kinds k).State) (Env P V Ctx D)) → Prop
  | .ok s, .ok t => s.env = t.env ∧ ∀ k age, (kinds k).inFlight (s.executors k) age = (kinds k).inFlight (t.executors k) age
  | .error e, .error e' => e = e'
  | _, _ => False

/-- The fast paths leave out no clock advance that would do anything. -/
theorem fast_paths_agree (kinds : Fin n → ExecutorKind P V Ctx D ε) (hkinds : ∀ k, (kinds k).WritesOutputs)
    (context : ContextClock (Env P V Ctx D)) (env : Env P V Ctx D) (cycles : List (FUState.Cycle n (Env P V Ctx D))) :
    SameResults kinds (runUnit kinds context env cycles) (runAll kinds context env cycles) := by
  let C (k : Fin n) := (kinds k).component (hkinds k)
  choose as hrel hready hidle using fun k => (kinds k).create_rel (hkinds k)
  have hbetween : FUState.Between C (FUState.create (fun k => (kinds k).create) env)
      (FUState.create (fun k => (kinds k).create) env) as := by
    refine ⟨⟨hrel, hrel, rfl, rfl, rfl, rfl⟩, ⟨fun _ => hidle, fun _ k hk => ?_, fun hone => ?_, fun hfalse => ?_⟩,
      hready, rfl⟩
    · cases hk
    · cases hone
    · cases hfalse
  have hresults := FUState.run_results context cycles hbetween
  change FUState.Results _ (runUnit kinds context env cycles) (runAll kinds context env cycles) at hresults
  cases hfast : runUnit kinds context env cycles with
  | error e =>
    cases hplain : runAll kinds context env cycles with
    | error e' =>
      rw [hfast, hplain] at hresults
      exact hresults
    | ok t =>
      rw [hfast, hplain] at hresults
      exact hresults
  | ok s =>
    cases hplain : runAll kinds context env cycles with
    | error e' =>
      rw [hfast, hplain] at hresults
      exact hresults
    | ok t =>
      rw [hfast, hplain] at hresults
      obtain ⟨bs, h⟩ := hresults
      exact ⟨h.env, fun k age => ExecutorKind.inFlight_eq (h.left k) (h.right k) (h.ready k) age⟩

/-! ## Operations that keep what their storage has held -/

/-- An operation of two cycles from the port `false` to the port `true`; an input
of 0 leaves the output as it was, or makes it 0. -/
def passing (keeps : Bool) : HWOperation Bool Nat Unit String where
  name := "PASS"
  numberOfInputs := 1
  numberOfOutputs := 1
  simulateTrigger inputs outputs context :=
    .ok (inputs, if keeps && inputs 0 = 0 then outputs else fun _ => inputs 0, true, context)
  latency := 2
  latency_pos := by decide
  latency_int := by decide
  resultLatency _ := 2
  inputBinding _ := false
  outputBinding _ := true
  outputBinding_injective _ _ _ := Subsingleton.elim _ _
  inputStorage _ := 0
  outputStorage _ := 0

/-- A trigger of the operation with a value, or a cycle without one. -/
def passingCycle (value : Option Nat) : FUState.Cycle 1 (Env Bool Nat Unit Unit) where
  triggers := if value.isSome then [.operationAndExecutor 0] else []
  moves env := { env with ports := Function.update env.ports false (value.getD 0) }
  memories := id
  rest := id

def noContext : ContextClock (Env Bool Nat Unit Unit) := ⟨fun _ => true, id⟩

theorem passing_writesOutputs : (passing false).WritesOutputs := fun _ _ _ _ => rfl

def passingUnit (keeps : Bool) : Fin 1 → ExecutorKind Bool Nat Unit Unit String := fun _ => .simple (passing keeps)

/-- A trigger, two cycles of which the second is skipped, and another trigger. -/
def passingCycles : List (FUState.Cycle 1 (Env Bool Nat Unit Unit)) :=
  [some 5, none, none, some 0, none].map passingCycle

theorem fast_paths_pass :
    SameResults (passingUnit false) (runUnit (passingUnit false) noContext ⟨fun _ => 0, (), ()⟩ passingCycles)
      (runAll (passingUnit false) noContext ⟨fun _ => 0, (), ()⟩ passingCycles) :=
  fast_paths_agree (passingUnit false) (fun _ => passing_writesOutputs) _ _ _

/-- After the skipped advance the trigger finds the output of the one before it
in its cell, and in the plain simulation it finds another cell. -/
theorem fast_paths_stale :
    ((runUnit (passingUnit true) noContext ⟨fun _ => 0, (), ()⟩ passingCycles).map fun s => s.env.ports true) = .ok 5 ∧
    ((runAll (passingUnit true) noContext ⟨fun _ => 0, (), ()⟩ passingCycles).map fun s => s.env.ports true) = .ok 0 :=
  ⟨rfl, rfl⟩

end runs

end Tce.Simulator
