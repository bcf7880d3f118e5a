import Mathlib.Data.Fintype.EquivFin
import Tce.Simulator.OperationExecutor

/-!
# Executors with a latency for each result

`MultiLatencyOperationExecutor` holds a slot for each operation that can be in
flight. An operation is simulated with the first clock advance after its
trigger, and each of its results goes to its port when the latency of that
result has passed.
-/

namespace Tce.Simulator

def intMax : Int := 2147483647

/-- `ExecutingOperation`, with the cycles to go of its pending results. -/
structure ExecutingOperation {P V Ctx ε : Type} (op : HWOperation P V Ctx ε) where
  inputs : Fin op.numberOfInputs → V
  outputs : Fin op.numberOfOutputs → V
  cyclesToGo : Fin op.numberOfOutputs → Int
  stage : Nat
  free : Bool

namespace ExecutingOperation
variable {P V Ctx ε : Type} {op : HWOperation P V Ctx ε}

def start (e : ExecutingOperation op) (inputs : Fin op.numberOfInputs → V) : ExecutingOperation op :=
  { e with
    inputs := inputs
    cyclesToGo := fun o => op.resultLatency o
    stage := 0
    free := false }

/-- The results that arrive with the next advance. -/
def arriving (e : ExecutingOperation op) (o : Fin op.numberOfOutputs) : Option V :=
  if e.cyclesToGo o - 1 = 0 then some (e.outputs o) else none

def advanceCycle (e : ExecutingOperation op) : ExecutingOperation op :=
  { e with
    cyclesToGo := fun o => if e.cyclesToGo o - 1 = 0 then intMax else e.cyclesToGo o - 1
    stage := e.stage + 1 }

def stop (e : ExecutingOperation op) : ExecutingOperation op := { e with free := true }

end ExecutingOperation

structure MultiLatencyState {P V Ctx ε : Type} (op : HWOperation P V Ctx ε) where
  executingOps : Fin op.latency → ExecutingOperation op
  freeExecOp : Option (Fin op.latency)
  hasPendingOperations : Bool

namespace MultiLatencyState
variable {P V Ctx D ε : Type} [DecidableEq P] {op : HWOperation P V Ctx ε}

def create (op : HWOperation P V Ctx ε) : MultiLatencyState op where
  executingOps _ := ⟨op.inputStorage, op.outputStorage, fun o => op.resultLatency o, 0, true⟩
  freeExecOp := none
  hasPendingOperations := true

/-- The loop over the slots ends at the last one when none is free. -/
def findFreeExecutingOperation (s : MultiLatencyState op) : Fin op.latency :=
  match s.freeExecOp with
  | some i => i
  | none => ((List.finRange op.latency).find? fun i => (s.executingOps i).free).getD
      ⟨op.latency - 1, Nat.sub_lt op.latency_pos Nat.one_pos⟩

def startOperation (s : MultiLatencyState op) (env : Env P V Ctx D) : MultiLatencyState op :=
  let i := s.findFreeExecutingOperation
  { executingOps := Function.update s.executingOps i ((s.executingOps i).start (env.ports ∘ op.inputBinding))
    freeExecOp := none
    hasPendingOperations := true }

/-- One turn of the loop; the flag is whether an active operation has been found. -/
def advanceStep (s : MultiLatencyState op × Env P V Ctx D) (i : Fin op.latency) :
    Except (FUFault ε) (MultiLatencyState op × Env P V Ctx D) :=
  let execOp := s.1.executingOps i
  if execOp.free then .ok ({ s.1 with freeExecOp := some i }, s.2)
  else do
    let (execOp, context) ←
      if execOp.stage = 0 then
        match op.simulateTrigger execOp.inputs execOp.outputs s.2.context with
        | .error e => .error (.operation e)
        | .ok (inputs, outputs, _, context) => .ok ({ execOp with inputs, outputs }, context)
      else .ok (execOp, s.2.context)
    let ports := writeSome op.outputBinding execOp.arriving s.2.ports
    let execOp := execOp.advanceCycle
    let execOp := if execOp.stage = op.latency then execOp.stop else execOp
    return ({ s.1 with executingOps := Function.update s.1.executingOps i execOp, hasPendingOperations := true },
      { s.2 with ports, context })

def advanceClock (s : MultiLatencyState op) (env : Env P V Ctx D) :
    Except (FUFault ε) (MultiLatencyState op × Env P V Ctx D) :=
  (List.finRange op.latency).foldlM advanceStep ({ s with hasPendingOperations := false }, env)

end MultiLatencyState

section executors
variable {P V Ctx D ε : Type} [DecidableEq P]

def multiLatency (op : HWOperation P V Ctx ε) : Clocked (MultiLatencyState op) (Env P V Ctx D) (FUFault ε) where
  start s env := .ok (s.startOperation env, env)
  advance := MultiLatencyState.advanceClock
  hasPending s := s.hasPendingOperations

/-- `ConflictDetectingOperationExecutor`: an operation is started if the detector
lets it be issued. The flag stays up, also with nothing in flight. -/
def conflictDetecting (op : HWOperation P V Ctx ε) (issueOperation : D → Bool × D) (throwWhenConflict : Bool) :
    Clocked (MultiLatencyState op) (Env P V Ctx D) (FUFault ε) where
  start s env :=
    let (issued, detector) := issueOperation env.detector
    let env := { env with detector := detector }
    if issued then .ok ({ s.startOperation env with hasPendingOperations := true }, env)
    else if throwWhenConflict then
      .error (.resourceConflict ("Resource conflict detected: operation " ++ op.name ++ "."))
    else .ok (s, env)
  advance s env := do
    let (s, env) ← s.advanceClock env
    return ({ s with hasPendingOperations := true }, env)
  hasPending s := s.hasPendingOperations

end executors

/-! ## What is in flight -/

/-- The inputs of a trigger that has not been simulated, and the results in
flight by the number of clock advances since the trigger. -/
structure Stages {P V Ctx ε : Type} (op : HWOperation P V Ctx ε) where
  fresh : Option (Fin op.numberOfInputs → V)
  line : Line op

namespace Stages
variable {P V Ctx D ε : Type} {op : HWOperation P V Ctx ε}

def Empty (a : Stages op) : Prop := a.fresh = none ∧ a.line.Empty

/-- The result of an output that arrives with the next advance. -/
def arriving (line : Line op) (o : Fin op.numberOfOutputs) : Option V :=
  if op.resultLatency o = 0 then none else (line (op.resultLatency o - 1)).map (· o)

/-- The trigger is simulated. -/
def simulate (a : Stages op) (context : Ctx) : Except (FUFault ε) (Line op × Ctx) :=
  match a.fresh with
  | none => .ok (a.line, context)
  | some inputs =>
    match op.simulateTrigger inputs op.outputStorage context with
    | .error e => .error (.operation e)
    | .ok (_, outputs, _, context) => .ok (Function.update a.line 0 (some outputs), context)

/-- The trigger is simulated, with these values in the outputs before it. -/
def simulateOn (a : Stages op) (old : Fin op.numberOfOutputs → V) (context : Ctx) : Except (FUFault ε) (Line op × Ctx) :=
  match a.fresh with
  | none => .ok (a.line, context)
  | some inputs =>
    match op.simulateTrigger inputs old context with
    | .error e => .error (.operation e)
    | .ok (_, outputs, _, context) => .ok (Function.update a.line 0 (some outputs), context)

def shiftOn [DecidableEq P] (a : Stages op) (old : Fin op.numberOfOutputs → V) (env : Env P V Ctx D) :
    Except (FUFault ε) (Stages op × Env P V Ctx D) := do
  let (line, context) ← a.simulateOn old env.context
  return (⟨none, line.older⟩, { env with ports := writeSome op.outputBinding (arriving line) env.ports, context })

def shift [DecidableEq P] (a : Stages op) (env : Env P V Ctx D) : Except (FUFault ε) (Stages op × Env P V Ctx D) := do
  let (line, context) ← a.simulate env.context
  return (⟨none, line.older⟩, { env with ports := writeSome op.outputBinding (arriving line) env.ports, context })

end Stages

/-! ## The loop over the slots -/

namespace ExecutingOperation
variable {P V Ctx ε : Type} {op : HWOperation P V Ctx ε}

/-- The slot after a turn of the loop that has nothing to simulate. -/
def aged (e : ExecutingOperation op) : ExecutingOperation op :=
  if e.free then e
  else if e.stage + 1 = op.latency then e.advanceCycle.stop
  else e.advanceCycle

/-- What a turn of the loop writes to the ports. -/
def written (e : ExecutingOperation op) : Fin op.numberOfOutputs → Option V :=
  if e.free then fun _ => none else e.arriving

end ExecutingOperation

namespace MultiLatencyState
variable {P V Ctx D ε : Type} [DecidableEq P] {op : HWOperation P V Ctx ε}

/-- A turn of the loop that has nothing to simulate. -/
def ageStep (s : MultiLatencyState op × Env P V Ctx D) (i : Fin op.latency) : MultiLatencyState op × Env P V Ctx D :=
  ({ executingOps := Function.update s.1.executingOps i (s.1.executingOps i).aged
     freeExecOp := if (s.1.executingOps i).free then some i else s.1.freeExecOp
     hasPendingOperations := s.1.hasPendingOperations || !(s.1.executingOps i).free },
    { s.2 with ports := writeSome op.outputBinding (s.1.executingOps i).written s.2.ports })

/-- A slot gets its results, and the context changes. -/
def simulated (s : MultiLatencyState op × Env P V Ctx D) (i : Fin op.latency) (e : ExecutingOperation op) (context : Ctx) :
    MultiLatencyState op × Env P V Ctx D :=
  ({ s.1 with executingOps := Function.update s.1.executingOps i e }, { s.2 with context := context })

theorem writeSome_none {m : Nat} (binding : Fin m → P) (ports : P → V) :
    writeSome binding (fun _ => none) ports = ports := by
  unfold writeSome
  induction List.finRange m with
  | nil => rfl
  | cons o os ih => exact ih

theorem advanceStep_age {s : MultiLatencyState op × Env P V Ctx D} {i : Fin op.latency}
    (h : (s.1.executingOps i).free = true ∨ (s.1.executingOps i).stage ≠ 0) :
    advanceStep s i = .ok (ageStep s i) := by
  unfold advanceStep ageStep ExecutingOperation.aged ExecutingOperation.written
  by_cases hfree : (s.1.executingOps i).free = true
  · simp only [hfree, if_true, writeSome_none, Function.update_eq_self, Bool.not_true, Bool.or_false]
  · rw [or_iff_right hfree] at h
    simp only [hfree, if_neg h, Bool.not_false, Bool.or_true]
    rfl

theorem advanceStep_trigger {s : MultiLatencyState op × Env P V Ctx D} {i : Fin op.latency}
    (hfree : (s.1.executingOps i).free = false) (hstage : (s.1.executingOps i).stage = 0) :
    advanceStep s i =
      match op.simulateTrigger (s.1.executingOps i).inputs (s.1.executingOps i).outputs s.2.context with
      | .error e => .error (.operation e)
      | .ok (inputs, outputs, _, context) =>
        .ok (ageStep (simulated s i { s.1.executingOps i with inputs, outputs } context) i) := by
  unfold advanceStep
  simp only [hfree, hstage, if_true]
  cases op.simulateTrigger (s.1.executingOps i).inputs (s.1.executingOps i).outputs s.2.context with
  | error e => rfl
  | ok r =>
    obtain ⟨inputs, outputs, ready, context⟩ := r
    simp only [ageStep, simulated, Function.update_self, Function.update_idem, ExecutingOperation.aged,
      ExecutingOperation.written, Bool.not_false, Bool.or_true]
    rfl

/-- Slots are advanced without regard of what is simulated in another one. -/
theorem ageStep_simulated (s : MultiLatencyState op × Env P V Ctx D) {i k : Fin op.latency} (hik : i ≠ k)
    (e : ExecutingOperation op) (context : Ctx) :
    ageStep (simulated s k e context) i = simulated (ageStep s i) k e context := by
  unfold ageStep simulated
  have hsame : Function.update s.1.executingOps k e i = s.1.executingOps i := Function.update_of_ne hik _ _
  simp only [hsame, Function.update_comm hik]

theorem foldl_simulated {k : Fin op.latency} {is : List (Fin op.latency)} (e : ExecutingOperation op) (context : Ctx) :
    ∀ s : MultiLatencyState op × Env P V Ctx D, k ∉ is →
      is.foldl ageStep (simulated s k e context) = simulated (is.foldl ageStep s) k e context := by
  induction is with
  | nil => exact fun _ _ => rfl
  | cons i is ih =>
    intro s hk
    rw [List.mem_cons, not_or] at hk
    rw [List.foldl_cons, List.foldl_cons, ageStep_simulated s (Ne.symm hk.1)]
    exact ih _ hk.2

theorem foldl_ageStep_of_notMem {is : List (Fin op.latency)} {j : Fin op.latency} :
    ∀ s : MultiLatencyState op × Env P V Ctx D, j ∉ is →
      (is.foldl ageStep s).1.executingOps j = s.1.executingOps j := by
  induction is with
  | nil => exact fun _ _ => rfl
  | cons i is ih =>
    intro s hj
    rw [List.mem_cons, not_or] at hj
    rw [List.foldl_cons, ih _ hj.2]
    exact Function.update_of_ne hj.1 _ _

theorem foldl_ageStep_context (is : List (Fin op.latency)) : ∀ s : MultiLatencyState op × Env P V Ctx D,
    (is.foldl ageStep s).2.context = s.2.context ∧ (is.foldl ageStep s).2.detector = s.2.detector := by
  induction is with
  | nil => exact fun _ => ⟨rfl, rfl⟩
  | cons i is ih => exact fun s => ih (ageStep s i)

/-- Slots with nothing to simulate are advanced. -/
theorem foldlM_age {is : List (Fin op.latency)} : ∀ s : MultiLatencyState op × Env P V Ctx D, is.Nodup →
    (∀ i ∈ is, (s.1.executingOps i).free = true ∨ (s.1.executingOps i).stage ≠ 0) →
    is.foldlM advanceStep s = .ok (is.foldl ageStep s) := by
  induction is with
  | nil => exact fun _ _ _ => rfl
  | cons i is ih =>
    intro s hnodup h
    obtain ⟨hi, hnodup⟩ := List.nodup_cons.1 hnodup
    rw [List.foldlM_cons, List.foldl_cons, advanceStep_age (h i List.mem_cons_self)]
    apply ih (ageStep s i) hnodup
    intro j hj
    have hji : j ≠ i := fun heq => hi (heq ▸ hj)
    have hsame : (ageStep s i).1.executingOps j = s.1.executingOps j := Function.update_of_ne hji _ _
    rw [hsame]
    exact h j (List.mem_cons_of_mem _ hj)

/-- With one trigger the loop simulates it, and advances all slots. -/
theorem foldlM_trigger {k : Fin op.latency} (s : MultiLatencyState op × Env P V Ctx D)
    (hfree : (s.1.executingOps k).free = false) (hstage : (s.1.executingOps k).stage = 0)
    (hothers : ∀ i, i ≠ k → (s.1.executingOps i).free = true ∨ (s.1.executingOps i).stage ≠ 0) :
    (List.finRange op.latency).foldlM advanceStep s =
      match op.simulateTrigger (s.1.executingOps k).inputs (s.1.executingOps k).outputs s.2.context with
      | .error e => .error (.operation e)
      | .ok (inputs, outputs, _, context) =>
        .ok ((List.finRange op.latency).foldl ageStep
          (simulated s k { s.1.executingOps k with inputs, outputs } context)) := by
  have hnodup := List.nodup_finRange op.latency
  obtain ⟨before, after, hsplit⟩ := List.append_of_mem (List.mem_finRange k)
  rw [hsplit, List.nodup_append] at hnodup
  obtain ⟨hafter, hnodupAfter⟩ := List.nodup_cons.1 hnodup.2.1
  have hbefore : k ∉ before := fun hk => hnodup.2.2 k hk k List.mem_cons_self rfl
  rw [hsplit, List.foldlM_append, foldlM_age s hnodup.1 fun i hi => hothers i fun heq => hbefore (heq ▸ hi)]
  change (k :: after).foldlM advanceStep (before.foldl ageStep s) = _
  have hslot := foldl_ageStep_of_notMem s hbefore
  rw [List.foldlM_cons, advanceStep_trigger (by rw [hslot, hfree]) (by rw [hslot, hstage]), hslot,
    (foldl_ageStep_context _ s).1]
  cases op.simulateTrigger (s.1.executingOps k).inputs (s.1.executingOps k).outputs s.2.context with
  | error e => rfl
  | ok r =>
    obtain ⟨inputs, outputs, ready, context⟩ := r
    dsimp only
    rw [List.foldl_append, foldl_simulated _ _ s hbefore, List.foldl_cons]
    apply foldlM_age _ hnodupAfter
    intro i hi
    have hik : i ≠ k := fun heq => hafter (heq ▸ hi)
    have hib : i ∉ before := fun hb => hnodup.2.2 i hb i (List.mem_cons_of_mem _ hi) rfl
    have hsame : (ageStep (simulated (before.foldl ageStep s) k { s.1.executingOps k with inputs, outputs } context)
        k).1.executingOps i = s.1.executingOps i :=
      (Function.update_of_ne hik _ _).trans
        ((Function.update_of_ne hik _ _).trans (foldl_ageStep_of_notMem s hib))
    rw [hsame]
    exact hothers i hik

theorem ageStep_of_ne {s : MultiLatencyState op × Env P V Ctx D} {i j : Fin op.latency} (h : j ≠ i) :
    (ageStep s i).1.executingOps j = s.1.executingOps j := Function.update_of_ne h _ _

theorem ageStep_self (s : MultiLatencyState op × Env P V Ctx D) (i : Fin op.latency) :
    (ageStep s i).1.executingOps i = (s.1.executingOps i).aged := Function.update_self _ _ _

theorem foldl_ageStep_of_mem {is : List (Fin op.latency)} {j : Fin op.latency} :
    ∀ s : MultiLatencyState op × Env P V Ctx D, is.Nodup → j ∈ is →
      (is.foldl ageStep s).1.executingOps j = (s.1.executingOps j).aged := by
  induction is with
  | nil =>
    intro _ _ hj
    cases hj
  | cons i is ih =>
    intro s hnodup hj
    obtain ⟨hi, hnodup⟩ := List.nodup_cons.1 hnodup
    rw [List.foldl_cons]
    by_cases hji : j = i
    · subst hji
      rw [foldl_ageStep_of_notMem _ hi, ageStep_self]
    · rw [ih _ hnodup ((List.mem_cons.1 hj).resolve_left hji), ageStep_of_ne hji]

/-- The slot that is remembered is free. -/
def RemembersFree (s : MultiLatencyState op) : Prop :=
  ∀ i, s.freeExecOp = some i → (s.executingOps i).free = true

theorem foldl_ageStep_remembers {is : List (Fin op.latency)} : ∀ {s : MultiLatencyState op × Env P V Ctx D},
    RemembersFree s.1 → RemembersFree (is.foldl ageStep s).1 := by
  induction is with
  | nil => exact id
  | cons i is ih =>
    intro s h
    apply ih
    have hkept : (s.1.executingOps i).free = true → (s.1.executingOps i).aged.free = true := fun hfree => by
      rwa [ExecutingOperation.aged, if_pos hfree]
    intro j hj
    change (if (s.1.executingOps i).free then some i else s.1.freeExecOp) = some j at hj
    by_cases hfree : (s.1.executingOps i).free = true
    · rw [if_pos hfree] at hj
      rw [← Option.some.inj hj, ageStep_self]
      exact hkept hfree
    · rw [if_neg hfree] at hj
      have hji : j ≠ i := fun heq => hfree (heq ▸ h j hj)
      rw [ageStep_of_ne hji]
      exact h j hj

/-- The flag is down at the end of the loop only if every slot was free. -/
theorem foldl_ageStep_flag {is : List (Fin op.latency)} : ∀ {s : MultiLatencyState op × Env P V Ctx D}, is.Nodup →
    (is.foldl ageStep s).1.hasPendingOperations = false →
    s.1.hasPendingOperations = false ∧ ∀ j ∈ is, (s.1.executingOps j).free = true := by
  induction is with
  | nil =>
    intro s _ h
    exact ⟨h, fun j hj => by cases hj⟩
  | cons i is ih =>
    intro s hnodup h
    obtain ⟨hi, hnodup⟩ := List.nodup_cons.1 hnodup
    obtain ⟨hflag, hfree⟩ := ih hnodup h
    change (s.1.hasPendingOperations || !(s.1.executingOps i).free) = false at hflag
    rw [Bool.or_eq_false_iff, Bool.not_eq_false'] at hflag
    refine ⟨hflag.1, fun j hj => ?_⟩
    cases List.mem_cons.1 hj with
    | inl heq => exact heq ▸ hflag.2
    | inr hj =>
      have hji : j ≠ i := fun heq => hi (heq ▸ hj)
      rw [← hfree j hj, ageStep_of_ne hji]

theorem foldl_ageStep_port {is : List (Fin op.latency)} (o : Fin op.numberOfOutputs) :
    ∀ s : MultiLatencyState op × Env P V Ctx D, is.Nodup →
      (is.foldl ageStep s).2.ports (op.outputBinding o) =
        is.foldl (fun v i => ((s.1.executingOps i).written o).getD v) (s.2.ports (op.outputBinding o)) := by
  induction is with
  | nil => exact fun _ _ => rfl
  | cons i is ih =>
    intro s hnodup
    obtain ⟨hi, hnodup⟩ := List.nodup_cons.1 hnodup
    rw [List.foldl_cons, List.foldl_cons, ih _ hnodup]
    have hport : (ageStep s i).2.ports (op.outputBinding o) =
        ((s.1.executingOps i).written o).getD (s.2.ports (op.outputBinding o)) :=
      writeSome_binding op.outputBinding_injective _ _ _
    rw [hport]
    apply List.foldl_ext
    intro v j hj
    have hji : j ≠ i := fun heq => hi (heq ▸ hj)
    rw [ageStep_of_ne hji]

theorem foldl_ageStep_other {is : List (Fin op.latency)} {p : P} (h : ∀ o, op.outputBinding o ≠ p) :
    ∀ s : MultiLatencyState op × Env P V Ctx D, (is.foldl ageStep s).2.ports p = s.2.ports p := by
  induction is with
  | nil => exact fun _ => rfl
  | cons i is ih =>
    intro s
    rw [List.foldl_cons, ih]
    exact writeSome_of_ne h

/-- Writes to one port that all write the same value. -/
theorem foldl_getD {ι : Type} {result : ι → Option V} {value : Option V} {is : List ι}
    (h : ∀ i ∈ is, ∀ v, result i = some v → value = some v)
    (hvalue : ∀ v, value = some v → ∃ i ∈ is, result i = some v) (v : V) :
    is.foldl (fun v i => (result i).getD v) v = value.getD v := by
  have hnone : ∀ {is : List ι} (v : V), (∀ i ∈ is, result i = none) → is.foldl (fun v i => (result i).getD v) v = v := by
    intro is
    induction is with
    | nil => exact fun _ _ => rfl
    | cons i is ih =>
      intro v hall
      rw [List.foldl_cons, hall i List.mem_cons_self]
      exact ih v fun j hj => hall j (List.mem_cons_of_mem _ hj)
  have hsame : ∀ {is : List ι} (w : V), (∀ i ∈ is, ∀ v, result i = some v → w = v) →
      is.foldl (fun v i => (result i).getD v) w = w := by
    intro is
    induction is with
    | nil => exact fun _ _ => rfl
    | cons i is ih =>
      intro w hall
      rw [List.foldl_cons]
      have hstep : (result i).getD w = w := by
        cases hi : result i with
        | none => rfl
        | some u => exact (hall i List.mem_cons_self u hi).symm
      rw [hstep]
      exact ih w fun j hj => hall j (List.mem_cons_of_mem _ hj)
  cases value with
  | none =>
    apply hnone v
    intro i hi
    cases hr : result i with
    | none => rfl
    | some u => cases h i hi u hr
  | some w =>
    obtain ⟨i, hi, hw⟩ := hvalue w rfl
    obtain ⟨before, after, rfl⟩ := List.append_of_mem hi
    rw [List.foldl_append, List.foldl_cons, hw]
    apply hsame w
    intro j hj u hu
    have := h j (List.mem_append_right _ (List.mem_cons_of_mem _ hj)) u hu
    exact Option.some.inj this

/-! ## The slots hold what is in flight -/

/-- The cycles to go of a result in a stage. -/
def remaining (op : HWOperation P V Ctx ε) (o : Fin op.numberOfOutputs) (stage : Nat) : Int :=
  if stage < op.resultLatency o then op.resultLatency o - stage
  else if op.resultLatency o = 0 then -stage
  else intMax - (stage - op.resultLatency o)

/-- The slots in use are in different stages. -/
structure Slots (s : MultiLatencyState op) : Prop where
  distinct : ∀ i j, (s.executingOps i).free = false → (s.executingOps j).free = false →
    (s.executingOps i).stage = (s.executingOps j).stage → i = j
  stage_lt : ∀ i, (s.executingOps i).free = false → (s.executingOps i).stage < op.latency
  cyclesToGo : ∀ i, (s.executingOps i).free = false → ∀ o,
    (s.executingOps i).cyclesToGo o = remaining op o (s.executingOps i).stage
  remembers : RemembersFree s

/-- The slots hold the line, with nothing left to simulate. -/
structure HoldsLine (s : MultiLatencyState op) (line : Line op) : Prop extends Slots s where
  results : ∀ i, (s.executingOps i).free = false → line (s.executingOps i).stage = some (s.executingOps i).outputs
  slot : ∀ age outputs, line age = some outputs → ∃ i, (s.executingOps i).free = false ∧ (s.executingOps i).stage = age

/-- The slots hold the stages. -/
structure Holds (s : MultiLatencyState op) (a : Stages op) : Prop extends Slots s where
  inputs : ∀ i, (s.executingOps i).free = false → (s.executingOps i).stage = 0 →
    a.fresh = some (s.executingOps i).inputs
  results : ∀ i, (s.executingOps i).free = false → (s.executingOps i).stage ≠ 0 →
    a.line (s.executingOps i).stage = some (s.executingOps i).outputs
  trigger : ∀ inputs, a.fresh = some inputs → ∃ i, (s.executingOps i).free = false ∧ (s.executingOps i).stage = 0
  slot : ∀ age outputs, a.line age = some outputs →
    age ≠ 0 ∧ ∃ i, (s.executingOps i).free = false ∧ (s.executingOps i).stage = age
  flag : ∀ i, (s.executingOps i).free = false → s.hasPendingOperations = true

omit [DecidableEq P] in
theorem remaining_zero (op : HWOperation P V Ctx ε) (o : Fin op.numberOfOutputs) :
    remaining op o 0 = op.resultLatency o := by
  unfold remaining
  split_ifs <;> omega

omit [DecidableEq P] in
theorem remaining_sub (op : HWOperation P V Ctx ε) (o : Fin op.numberOfOutputs) {stage : Nat} (h : stage < op.latency) :
    (remaining op o stage - 1 = 0 ↔ stage + 1 = op.resultLatency o) ∧
    (if remaining op o stage - 1 = 0 then intMax else remaining op o stage - 1) = remaining op o (stage + 1) := by
  have hint := op.latency_int
  unfold remaining intMax
  constructor
  · split_ifs <;> omega
  · split_ifs <;> omega

omit [DecidableEq P] in
theorem aged_of_busy {e : ExecutingOperation op} (h : e.aged.free = false) :
    e.free = false ∧ e.stage + 1 ≠ op.latency ∧ e.aged = e.advanceCycle := by
  unfold ExecutingOperation.aged at h ⊢
  by_cases hfree : e.free = true
  · rw [if_pos hfree, hfree] at h
    cases h
  · rw [if_neg hfree] at h ⊢
    by_cases hlast : e.stage + 1 = op.latency
    · rw [if_pos hlast] at h
      cases h
    · rw [if_neg hlast]
      exact ⟨by simpa using hfree, hlast, rfl⟩

omit [DecidableEq P] in
/-- The slots write what arrives at the end of the latency of an output. -/
theorem written_iff {s : MultiLatencyState op} {line : Line op} (h : HoldsLine s line) (o : Fin op.numberOfOutputs)
    (v : V) : (∃ i, (s.executingOps i).written o = some v) ↔ Stages.arriving line o = some v := by
  have hwritten {i : Fin op.latency} (hi : (s.executingOps i).free = false) : (s.executingOps i).written o =
      if (s.executingOps i).stage + 1 = op.resultLatency o then some ((s.executingOps i).outputs o) else none := by
    rw [ExecutingOperation.written, if_neg (by simp [hi]), ExecutingOperation.arriving, h.cyclesToGo i hi]
    simp only [(remaining_sub op o (h.stage_lt i hi)).1]
  unfold Stages.arriving
  constructor
  · rintro ⟨i, hi⟩
    have hfree : (s.executingOps i).free = false := by
      by_contra hne
      rw [ExecutingOperation.written, if_pos (by simpa using hne)] at hi
      cases hi
    rw [hwritten hfree] at hi
    by_cases hlast : (s.executingOps i).stage + 1 = op.resultLatency o
    · rw [if_pos hlast] at hi
      rw [if_neg (by omega), ← hlast, Nat.add_sub_cancel, h.results i hfree]
      exact hi
    · rw [if_neg hlast] at hi
      cases hi
  · intro hv
    by_cases hzero : op.resultLatency o = 0
    · rw [if_pos hzero] at hv
      cases hv
    · rw [if_neg hzero, Option.map_eq_some_iff] at hv
      obtain ⟨outputs, hline, rfl⟩ := hv
      obtain ⟨i, hfree, hstage⟩ := h.slot _ _ hline
      refine ⟨i, ?_⟩
      rw [hwritten hfree, if_pos (by omega)]
      rw [← hstage, h.results i hfree] at hline
      rw [Option.some.inj hline]

/-- The loop makes everything in flight one stage older. -/
theorem ageAll_holds (s : MultiLatencyState op) {line : Line op} (h : HoldsLine s line) (env : Env P V Ctx D) :
    Agree Holds (ε := FUFault ε) (.ok ((List.finRange op.latency).foldl ageStep (s, env)))
      (.ok (⟨none, line.older⟩, { env with ports := writeSome op.outputBinding (Stages.arriving line) env.ports })) := by
  have hnodup := List.nodup_finRange op.latency
  have hops (j : Fin op.latency) := foldl_ageStep_of_mem (s, env) hnodup (List.mem_finRange j)
  have hbusy {j : Fin op.latency} (hj : (s.executingOps j).aged.free = false) := aged_of_busy hj
  refine ⟨⟨⟨?_, ?_, ?_, foldl_ageStep_remembers h.remembers⟩, ?_, ?_, ?_, ?_, ?_⟩, ?_⟩
  · intro i j hi hj heq
    rw [hops] at hi hj
    rw [hops, hops, (hbusy hi).2.2, (hbusy hj).2.2] at heq
    exact h.distinct i j (hbusy hi).1 (hbusy hj).1 (Nat.succ.inj heq)
  · intro i hi
    rw [hops] at hi
    rw [hops, (hbusy hi).2.2]
    have hlt := h.stage_lt i (hbusy hi).1
    have hne := (hbusy hi).2.1
    change (s.executingOps i).stage + 1 < op.latency
    omega
  · intro i hi o
    rw [hops] at hi
    rw [hops, (hbusy hi).2.2]
    change _ = remaining op o ((s.executingOps i).stage + 1)
    rw [← (remaining_sub op o (h.stage_lt i (hbusy hi).1)).2, ← h.cyclesToGo i (hbusy hi).1]
    rfl
  · intro i hi hzero
    rw [hops] at hi
    rw [hops, (hbusy hi).2.2] at hzero
    cases hzero
  · intro i hi _
    rw [hops] at hi
    rw [hops, (hbusy hi).2.2]
    change Line.older line ((s.executingOps i).stage + 1) = _
    have hlt := h.stage_lt i (hbusy hi).1
    have hne := (hbusy hi).2.1
    rw [Line.older, if_pos (by omega), h.results i (hbusy hi).1]
    rfl
  · intro inputs hfresh
    cases hfresh
  · intro age outputs hline
    cases age with
    | zero => cases hline
    | succ age =>
      refine ⟨Nat.succ_ne_zero age, ?_⟩
      dsimp only [Line.older] at hline
      by_cases hage : age + 1 < op.latency
      · rw [if_pos hage] at hline
        obtain ⟨i, hfree, rfl⟩ := h.slot age outputs hline
        have haged : (s.executingOps i).aged = (s.executingOps i).advanceCycle := by
          rw [ExecutingOperation.aged, if_neg (by simp [hfree]), if_neg (by omega)]
        refine ⟨i, ?_, ?_⟩
        · rw [hops, haged]
          exact hfree
        · rw [hops, haged]
          rfl
      · rw [if_neg hage] at hline
        cases hline
  · intro i hi
    rw [hops] at hi
    by_contra hflag
    have hfree := (foldl_ageStep_flag hnodup (by simpa using hflag)).2 i (List.mem_finRange i)
    rw [(hbusy hi).1] at hfree
    cases hfree
  · obtain ⟨hcontext, hdetector⟩ := foldl_ageStep_context (List.finRange op.latency) (s, env)
    refine Env.ext ?_ hcontext hdetector
    apply writeSome_congr op.outputBinding_injective
    · intro o
      rw [foldl_ageStep_port o _ hnodup]
      apply foldl_getD
      · intro i _ v hv
        exact (written_iff h o v).1 ⟨i, hv⟩
      · intro v hv
        obtain ⟨i, hi⟩ := (written_iff h o v).2 hv
        exact ⟨i, List.mem_finRange i, hi⟩
    · exact fun p hp => foldl_ageStep_other hp _

omit [DecidableEq P] in
/-- With no trigger left to simulate a slot is free: those in use are in
different stages, and none is in the first. -/
theorem exists_free {s : MultiLatencyState op} {a : Stages op} (h : Holds s a) (hready : a.fresh = none) :
    ∃ i, (s.executingOps i).free = true := by
  by_contra hnone
  have hbusy : ∀ i, (s.executingOps i).free = false := fun i => by
    by_contra hi
    exact hnone ⟨i, by simpa using hi⟩
  let stage (i : Fin op.latency) : Fin op.latency := ⟨(s.executingOps i).stage, h.stage_lt i (hbusy i)⟩
  have hinj : Function.Injective stage := fun i j heq => h.distinct i j (hbusy i) (hbusy j) (Fin.mk.inj heq)
  obtain ⟨i, hi⟩ := Finite.surjective_of_injective hinj ⟨0, op.latency_pos⟩
  have hfresh := h.inputs i (hbusy i) (Fin.mk.inj hi)
  rw [hready] at hfresh
  cases hfresh

omit [DecidableEq P] in
theorem findFreeExecutingOperation_free {s : MultiLatencyState op} (hs : RemembersFree s)
    (h : ∃ i, (s.executingOps i).free = true) : (s.executingOps s.findFreeExecutingOperation).free = true := by
  unfold findFreeExecutingOperation
  cases hremembered : s.freeExecOp with
  | some i => exact hs i hremembered
  | none =>
    dsimp only
    cases hfind : (List.finRange op.latency).find? fun i => (s.executingOps i).free with
    | some i =>
      have hi := List.find?_some hfind
      exact hi
    | none =>
      obtain ⟨i, hi⟩ := h
      exact absurd hi (List.find?_eq_none.1 hfind i (List.mem_finRange i))

omit [DecidableEq P] in
theorem startOperation_holds {s : MultiLatencyState op} {a : Stages op} (h : Holds s a) (hready : a.fresh = none)
    (env : Env P V Ctx D) :
    Holds (s.startOperation env) ⟨some (env.ports ∘ op.inputBinding), a.line⟩ := by
  have hfree := findFreeExecutingOperation_free h.remembers (exists_free h hready)
  unfold startOperation
  dsimp only
  generalize s.findFreeExecutingOperation = k at hfree
  generalize hops : Function.update s.executingOps k ((s.executingOps k).start (env.ports ∘ op.inputBinding)) = ops
  have hself : ops k = (s.executingOps k).start (env.ports ∘ op.inputBinding) := by
    rw [← hops, Function.update_self]
  have hother : ∀ i, i ≠ k → ops i = s.executingOps i := fun i hi => by rw [← hops, Function.update_of_ne hi]
  -- a slot in use before is another one, in a later stage
  have hlater : ∀ i, i ≠ k → (ops i).free = false → (ops i).stage ≠ 0 := by
    intro i hi hbusy hzero
    rw [hother i hi] at hbusy hzero
    have hfresh := h.inputs i hbusy hzero
    rw [hready] at hfresh
    cases hfresh
  refine ⟨⟨?_, ?_, ?_, ?_⟩, ?_, ?_, ?_, ?_, ?_⟩
  · intro i j hi hj heq
    dsimp only at hi hj heq
    by_cases hik : i = k
    · by_cases hjk : j = k
      · exact hik.trans hjk.symm
      · rw [hik, hself] at heq
        exact absurd heq.symm (hlater j hjk hj)
    · by_cases hjk : j = k
      · rw [hjk, hself] at heq
        exact absurd heq (hlater i hik hi)
      · rw [hother i hik] at hi heq
        rw [hother j hjk] at hj heq
        exact h.distinct i j hi hj heq
  · intro i hi
    dsimp only at hi ⊢
    by_cases hik : i = k
    · rw [hik, hself]
      exact op.latency_pos
    · rw [hother i hik] at hi ⊢
      exact h.stage_lt i hi
  · intro i hi o
    dsimp only at hi ⊢
    by_cases hik : i = k
    · rw [hik, hself]
      exact (remaining_zero op o).symm
    · rw [hother i hik] at hi ⊢
      exact h.cyclesToGo i hi o
  · intro i hi
    cases hi
  · intro i hi hzero
    dsimp only at hi hzero ⊢
    by_cases hik : i = k
    · rw [hik, hself]
      rfl
    · exact absurd hzero (hlater i hik hi)
  · intro i hi hne
    dsimp only at hi hne ⊢
    by_cases hik : i = k
    · rw [hik, hself] at hne
      exact absurd rfl hne
    · rw [hother i hik] at hi hne ⊢
      exact h.results i hi hne
  · intro inputs _
    refine ⟨k, ?_, ?_⟩
    · dsimp only
      rw [hself]
      rfl
    · dsimp only
      rw [hself]
      rfl
  · intro age outputs hline
    obtain ⟨hage, i, hi, hstage⟩ := h.slot age outputs hline
    have hik : i ≠ k := fun heq => by
      rw [heq, hfree] at hi
      cases hi
    refine ⟨hage, i, ?_⟩
    dsimp only
    rw [hother i hik]
    exact ⟨hi, hstage⟩
  · exact fun _ _ => rfl

/-- The operation finds what its slot has held before. -/
theorem advanceClock_agreeOn {s : MultiLatencyState op} {a : Stages op} (h : Holds s a) (env : Env P V Ctx D) :
    ∃ old, Agree Holds (s.advanceClock env) (a.shiftOn old env) := by
  unfold advanceClock Stages.shiftOn Stages.simulateOn
  cases hfresh : a.fresh with
  | none =>
    refine ⟨op.outputStorage, ?_⟩
    have hstage : ∀ i, (s.executingOps i).free = false → (s.executingOps i).stage ≠ 0 := by
      intro i hi hzero
      have hinputs := h.inputs i hi hzero
      rw [hfresh] at hinputs
      cases hinputs
    rw [foldlM_age _ (List.nodup_finRange _)]
    · exact ageAll_holds { s with hasPendingOperations := false }
        ⟨⟨h.distinct, h.stage_lt, h.cyclesToGo, h.remembers⟩, fun i hi => h.results i hi (hstage i hi),
          fun age outputs hline => (h.slot age outputs hline).2⟩ env
    · intro i _
      by_cases hi : (s.executingOps i).free = true
      · exact .inl hi
      · exact .inr (hstage i (by simpa using hi))
  | some inputs =>
    obtain ⟨k, hfree, hstage⟩ := h.trigger inputs hfresh
    have hinputs : (s.executingOps k).inputs = inputs :=
      Option.some.inj ((h.inputs k hfree hstage).symm.trans hfresh)
    have hothers : ∀ i, i ≠ k → (s.executingOps i).free = true ∨ (s.executingOps i).stage ≠ 0 := by
      intro i hik
      by_cases hi : (s.executingOps i).free = true
      · exact .inl hi
      · refine .inr fun hzero => hik (h.distinct i k (by simpa using hi) hfree ?_)
        rw [hzero, hstage]
    rw [foldlM_trigger ({ s with hasPendingOperations := false }, env) hfree hstage hothers]
    dsimp only
    refine ⟨(s.executingOps k).outputs, ?_⟩
    rw [hinputs]
    cases op.simulateTrigger inputs (s.executingOps k).outputs env.context with
    | error e => rfl
    | ok r =>
      obtain ⟨inputs', outputs, ready, context⟩ := r
      dsimp only
      generalize he : ({ s.executingOps k with inputs := inputs', outputs := outputs } : ExecutingOperation op) = e
      generalize hops : Function.update s.executingOps k e = ops
      have hself : ops k = e := by rw [← hops, Function.update_self]
      have hother : ∀ i, i ≠ k → ops i = s.executingOps i := fun i hi => by rw [← hops, Function.update_of_ne hi]
      have hsame : ∀ i, (ops i).free = (s.executingOps i).free ∧ (ops i).stage = (s.executingOps i).stage ∧
          (ops i).cyclesToGo = (s.executingOps i).cyclesToGo := by
        intro i
        by_cases hik : i = k
        · rw [hik, hself, ← he]
          exact ⟨rfl, rfl, rfl⟩
        · rw [hother i hik]
          exact ⟨rfl, rfl, rfl⟩
      have hline : HoldsLine { s with executingOps := ops, hasPendingOperations := false }
          (Function.update a.line 0 (some outputs)) := by
        refine ⟨⟨?_, ?_, ?_, ?_⟩, ?_, ?_⟩
        · intro i j hi hj heq
          dsimp only at hi hj heq
          rw [(hsame i).1] at hi
          rw [(hsame j).1] at hj
          rw [(hsame i).2.1, (hsame j).2.1] at heq
          exact h.distinct i j hi hj heq
        · intro i hi
          dsimp only at hi ⊢
          rw [(hsame i).1] at hi
          rw [(hsame i).2.1]
          exact h.stage_lt i hi
        · intro i hi o
          dsimp only at hi ⊢
          rw [(hsame i).1] at hi
          rw [(hsame i).2.1, (hsame i).2.2]
          exact h.cyclesToGo i hi o
        · intro i hi
          dsimp only at hi ⊢
          rw [(hsame i).1]
          exact h.remembers i hi
        · intro i hi
          dsimp only at hi ⊢
          by_cases hik : i = k
          · rw [hik, hself, ← he]
            dsimp only
            rw [hstage, Function.update_self]
          · rw [(hsame i).1] at hi
            have hne : (s.executingOps i).stage ≠ 0 := (hothers i hik).resolve_left (by simp [hi])
            rw [hother i hik, Function.update_of_ne hne]
            exact h.results i hi hne
        · intro age outputs' hage
          dsimp only
          by_cases hzero : age = 0
          · exact ⟨k, (hsame k).1.trans hfree, (hsame k).2.1.trans (hstage.trans hzero.symm)⟩
          · rw [Function.update_of_ne hzero] at hage
            obtain ⟨_, i, hi, hi'⟩ := h.slot age outputs' hage
            exact ⟨i, (hsame i).1.trans hi, (hsame i).2.1.trans hi'⟩
      have hall := ageAll_holds _ hline { env with context := context }
      rw [← hops] at hall
      exact hall

theorem advanceClock_agree (hop : op.WritesOutputs) {s : MultiLatencyState op} {a : Stages op} (h : Holds s a)
    (env : Env P V Ctx D) : Agree Holds (s.advanceClock env) (a.shift env) := by
  obtain ⟨old, hagree⟩ := advanceClock_agreeOn h env
  have hsame : a.shiftOn old env = a.shift env := by
    unfold Stages.shiftOn Stages.shift Stages.simulateOn Stages.simulate
    cases a.fresh with
    | none => rfl
    | some inputs =>
      dsimp only
      rw [hop inputs old op.outputStorage env.context]
  rwa [hsame] at hagree

omit [DecidableEq P] in
theorem empty_of_not_pending {s : MultiLatencyState op} {a : Stages op} (h : Holds s a)
    (hflag : s.hasPendingOperations = false) : a.Empty := by
  have hfree : ∀ i, (s.executingOps i).free ≠ false := fun i hi => by
    rw [h.flag i hi] at hflag
    cases hflag
  constructor
  · cases hfresh : a.fresh with
    | none => rfl
    | some inputs =>
      obtain ⟨i, hi, _⟩ := h.trigger inputs hfresh
      exact absurd hi (hfree i)
  · intro age
    cases hline : a.line age with
    | none => rfl
    | some outputs =>
      obtain ⟨_, i, hi, _⟩ := h.slot age outputs hline
      exact absurd hi (hfree i)

omit [DecidableEq P] in
theorem holds_create : Holds (create op) ⟨none, fun _ => none⟩ where
  distinct _ _ hi := by cases hi
  stage_lt _ hi := by cases hi
  cyclesToGo _ hi := by cases hi
  remembers _ hi := by cases hi
  inputs _ hi := by cases hi
  results _ hi := by cases hi
  trigger _ hi := by cases hi
  slot _ _ hi := by cases hi
  flag _ hi := by cases hi

omit [DecidableEq P] in
theorem holds_flag {s : MultiLatencyState op} {a : Stages op} (h : Holds s a) :
    Holds { s with hasPendingOperations := true } a :=
  ⟨⟨h.distinct, h.stage_lt, h.cyclesToGo, h.remembers⟩, h.inputs, h.results, h.trigger, h.slot, fun _ _ => rfl⟩

/-- The results of the operation in a stage. -/
def inFlight (s : MultiLatencyState op) (age : Nat) : Option (Fin op.numberOfOutputs → V) :=
  (List.finRange op.latency).findSome? fun i =>
    if !(s.executingOps i).free && (s.executingOps i).stage = age then some (s.executingOps i).outputs else none

omit [DecidableEq P] in
theorem inFlight_eq {s : MultiLatencyState op} {a : Stages op} (h : Holds s a) (hready : a.fresh = none) (age : Nat) :
    s.inFlight age = a.line age := by
  unfold inFlight
  cases hfind : (List.finRange op.latency).findSome? fun i =>
    if !(s.executingOps i).free && (s.executingOps i).stage = age then some (s.executingOps i).outputs else none with
  | none =>
    cases hline : a.line age with
    | none => rfl
    | some outputs =>
      obtain ⟨_, i, hfree, hstage⟩ := h.slot age outputs hline
      have hi := List.findSome?_eq_none_iff.1 hfind i (List.mem_finRange i)
      rw [if_pos (by simp [hfree, hstage])] at hi
      cases hi
  | some outputs =>
    obtain ⟨i, _, hi⟩ := List.exists_of_findSome?_eq_some hfind
    split at hi
    · next hbusy =>
      obtain ⟨hfree, rfl⟩ : (s.executingOps i).free = false ∧ (s.executingOps i).stage = age := by simpa using hbusy
      have hne : (s.executingOps i).stage ≠ 0 := fun hzero => by
        have hinputs := h.inputs i hfree hzero
        rw [hready] at hinputs
        cases hinputs
      rw [h.results i hfree hne, hi]
    · cases hi

end MultiLatencyState

namespace Stages
variable {P V Ctx D ε : Type} [DecidableEq P] {op : HWOperation P V Ctx ε}

theorem shift_ready {a a' : Stages op} {env env' : Env P V Ctx D} (h : a.shift env = .ok (a', env')) :
    a'.fresh = none := by
  unfold shift at h
  cases hsim : a.simulate env.context with
  | error e =>
    rw [hsim] at h
    cases h
  | ok r =>
    rw [hsim] at h
    cases h
    rfl

theorem shift_empty {a : Stages op} (h : a.Empty) (env : Env P V Ctx D) : a.shift env = .ok (a, env) := by
  obtain ⟨fresh, line⟩ := a
  obtain ⟨rfl, hline⟩ := h
  have hnone : arriving line = fun _ => none := by
    funext o
    rw [arriving, show line (op.resultLatency o - 1) = none from hline _, Option.map_none, ite_self]
  change Except.ok ((⟨none, line.older⟩ : Stages op),
    { env with ports := writeSome op.outputBinding (arriving line) env.ports }) = _
  rw [hnone, MultiLatencyState.writeSome_none, Line.older_empty hline]

end Stages

section executors
variable {P V Ctx D ε : Type} [DecidableEq P]

def multiLatencyComponent (op : HWOperation P V Ctx ε) (hop : op.WritesOutputs) :
    Component (multiLatency (D := D) op) (Stages op) where
  enter a env := .ok (⟨some (env.ports ∘ op.inputBinding), a.line⟩, env)
  shift := Stages.shift
  Rel := MultiLatencyState.Holds
  Ready a := a.fresh = none
  Idle := Stages.Empty
  start_agree h hready := ⟨MultiLatencyState.startOperation_holds h hready _, rfl⟩
  advance_agree h := MultiLatencyState.advanceClock_agree hop h _
  ready_shift := Stages.shift_ready
  idle_of_not_pending := MultiLatencyState.empty_of_not_pending
  shift_idle h := Stages.shift_empty h _

/-- Whether an operation is issued depends on the detector alone. -/
def conflictDetectingComponent (op : HWOperation P V Ctx ε) (hop : op.WritesOutputs) (issueOperation : D → Bool × D)
    (throwWhenConflict : Bool) : Component (conflictDetecting op issueOperation throwWhenConflict) (Stages op) where
  enter a env :=
    let (issued, detector) := issueOperation env.detector
    let env := { env with detector := detector }
    if issued then .ok (⟨some (env.ports ∘ op.inputBinding), a.line⟩, env)
    else if throwWhenConflict then
      .error (.resourceConflict ("Resource conflict detected: operation " ++ op.name ++ "."))
    else .ok (a, env)
  shift := Stages.shift
  Rel := MultiLatencyState.Holds
  Ready a := a.fresh = none
  Idle := Stages.Empty
  start_agree {s a env} h hready := by
    dsimp only [conflictDetecting]
    cases (issueOperation env.detector).1 with
    | true => exact ⟨MultiLatencyState.holds_flag (MultiLatencyState.startOperation_holds h hready _), rfl⟩
    | false =>
      cases throwWhenConflict with
      | true => rfl
      | false => exact ⟨h, rfl⟩
  advance_agree {s a env} h := by
    dsimp only [conflictDetecting]
    rw [← bind_pure (a.shift env)]
    apply agree_bind (MultiLatencyState.advanceClock_agree hop h env)
    intro s' a' env' h' _ _
    exact ⟨MultiLatencyState.holds_flag h', rfl⟩
  ready_shift := Stages.shift_ready
  idle_of_not_pending := MultiLatencyState.empty_of_not_pending
  shift_idle h := Stages.shift_empty h _

end executors

end Tce.Simulator
