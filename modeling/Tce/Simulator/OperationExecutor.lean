import Tce.Simulator.FUState

/-!
# Operation executors

An executor starts the triggers of one operation and brings the results to the
output ports when their latency has passed. What it does is said by a line of
the results in flight, by the number of clock advances since the trigger.
-/

namespace Tce.Simulator

/-- An operation: it may change its inputs, outputs and context, and says
whether all values could be computed. -/
structure Operation (V Ctx ε : Type) where
  name : String
  numberOfInputs : Nat
  numberOfOutputs : Nat
  simulateTrigger : (Fin numberOfInputs → V) → (Fin numberOfOutputs → V) → Ctx →
    Except ε ((Fin numberOfInputs → V) × (Fin numberOfOutputs → V) × Bool × Ctx)

/-- What a trigger does does not depend on the values the outputs had before it. -/
def Operation.WritesOutputs {V Ctx ε : Type} (op : Operation V Ctx ε) : Prop :=
  ∀ inputs outputs outputs' context,
    op.simulateTrigger inputs outputs context = op.simulateTrigger inputs outputs' context

/-- An operation in a function unit. A latency of 0 is refused when the machine
state is built, and no two operands can be bound to one port. The storage is
that of operands before the first trigger. -/
structure HWOperation (P V Ctx ε : Type) extends Operation V Ctx ε where
  latency : Nat
  latency_pos : 0 < latency
  latency_int : latency ≤ 2147483647
  resultLatency : Fin numberOfOutputs → Nat
  inputBinding : Fin numberOfInputs → P
  outputBinding : Fin numberOfOutputs → P
  outputBinding_injective : Function.Injective outputBinding
  inputStorage : Fin numberOfInputs → V
  outputStorage : Fin numberOfOutputs → V

/-- What executors share: the values of the ports, the context, the detector. -/
@[ext]
structure Env (P V Ctx D : Type) where
  ports : P → V
  context : Ctx
  detector : D

/-! ## Ports -/

section ports
variable {P V : Type} [DecidableEq P] {m : Nat}

/-- The values that there are go to the ports of their operands, in the order of operands. -/
def writeSome (binding : Fin m → P) (values : Fin m → Option V) (ports : P → V) : P → V :=
  (List.finRange m).foldl (fun ports o => match values o with
    | some v => Function.update ports (binding o) v
    | none => ports) ports

def writePorts (binding : Fin m → P) (values : Fin m → V) (ports : P → V) : P → V :=
  writeSome binding (fun o => some (values o)) ports

variable {binding : Fin m → P} (hinj : Function.Injective binding)

theorem foldl_write_of_notMem {values : Fin m → Option V} {p : P} {os : List (Fin m)} :
    ∀ {ports : P → V}, (∀ o ∈ os, binding o ≠ p) → os.foldl (fun ports o => match values o with
      | some v => Function.update ports (binding o) v
      | none => ports) ports p = ports p := by
  induction os with
  | nil => exact fun _ => rfl
  | cons o os ih =>
    intro ports h
    rw [List.foldl_cons, ih fun o' ho' => h o' (List.mem_cons_of_mem _ ho')]
    cases values o with
    | none => rfl
    | some v => exact Function.update_of_ne (Ne.symm (h o List.mem_cons_self)) _ _

theorem writeSome_of_ne {values : Fin m → Option V} {ports : P → V} {p : P} (h : ∀ o, binding o ≠ p) :
    writeSome binding values ports p = ports p :=
  foldl_write_of_notMem fun o _ => h o

include hinj

theorem writeSome_binding (values : Fin m → Option V) (ports : P → V) (o : Fin m) :
    writeSome binding values ports (binding o) = (values o).getD (ports (binding o)) := by
  unfold writeSome
  obtain ⟨before, after, hsplit⟩ := List.append_of_mem (List.mem_finRange o)
  have hnodup := List.nodup_finRange m
  rw [hsplit, List.nodup_append] at hnodup
  have hbefore : ∀ o' ∈ before, binding o' ≠ binding o := fun o' ho' heq =>
    hnodup.2.2 o' ho' o List.mem_cons_self (hinj heq)
  have hafter : ∀ o' ∈ after, binding o' ≠ binding o := fun o' ho' heq =>
    (List.nodup_cons.1 hnodup.2.1).1 (hinj heq ▸ ho')
  rw [hsplit, List.foldl_append, List.foldl_cons, foldl_write_of_notMem hafter]
  cases values o with
  | none => exact foldl_write_of_notMem hbefore
  | some v => exact Function.update_self _ _ _

/-- Ports are written alike when every output gets the same value. -/
theorem writeSome_congr {values : Fin m → Option V} {ports ports' : P → V}
    (hbound : ∀ o, ports' (binding o) = (values o).getD (ports (binding o)))
    (hothers : ∀ p, (∀ o, binding o ≠ p) → ports' p = ports p) : ports' = writeSome binding values ports := by
  funext p
  by_cases hp : ∃ o, binding o = p
  · obtain ⟨o, rfl⟩ := hp
    rw [writeSome_binding hinj, hbound]
  · have hne : ∀ o, binding o ≠ p := fun o ho => hp ⟨o, ho⟩
    rw [writeSome_of_ne hne, hothers p hne]

end ports

/-! ## Operations of one cycle -/

section executors
variable {P V Ctx D ε : Type} [DecidableEq P]

/-- `OneCycleOperationExecutor`: the operation computes on the values of the ports. -/
structure OneCycleState where
  ready : Bool
  hasPendingOperations : Bool

def oneCycle (op : HWOperation P V Ctx ε) : Clocked OneCycleState (Env P V Ctx D) (FUFault ε) where
  start _ env :=
    match op.simulateTrigger (env.ports ∘ op.inputBinding) (env.ports ∘ op.outputBinding) env.context with
    | .error e => .error (.operation e)
    | .ok (inputs, outputs, ready, context) =>
      .ok (⟨ready, !ready⟩, { env with
        ports := writePorts op.outputBinding outputs (writePorts op.inputBinding inputs env.ports)
        context := context })
  advance s env := .ok ({ s with hasPendingOperations := false }, env)
  hasPending s := s.hasPendingOperations

/-- Nothing of it is in flight between two cycles. -/
def oneCycleComponent (op : HWOperation P V Ctx ε) : Component (oneCycle (D := D) op) Unit where
  enter _ env := do
    let (_, env) ← (oneCycle op).start ⟨false, false⟩ env
    return ((), env)
  shift _ env := .ok ((), env)
  Rel _ _ := True
  Ready _ := True
  Idle _ := True
  start_agree {s a e} _ _ := by
    dsimp only [oneCycle]
    cases op.simulateTrigger (e.ports ∘ op.inputBinding) (e.ports ∘ op.outputBinding) e.context with
    | error f => rfl
    | ok r => exact ⟨trivial, rfl⟩
  advance_agree _ := ⟨trivial, rfl⟩
  ready_shift _ := trivial
  idle_of_not_pending _ _ := trivial
  shift_idle _ := rfl

/-! ## Operations whose results all take the whole latency -/

/-- A cell of the ring buffer; the outputs keep what was last written to them. -/
structure BufferCell (op : HWOperation P V Ctx ε) where
  /-- An operation is in flight in the cell. -/
  operation : Bool
  outputs : Fin op.numberOfOutputs → V
  ready : Bool

/-- `SimpleOperationExecutor`. -/
structure SimpleState (op : HWOperation P V Ctx ε) where
  buffer : List (BufferCell op)
  nextSlot : Nat
  pendingOperations : Nat
  hasPendingOperations : Bool

namespace SimpleState
variable {op : HWOperation P V Ctx ε}

def create (op : HWOperation P V Ctx ε) : SimpleState op :=
  ⟨List.replicate op.latency ⟨false, op.outputStorage, false⟩, 0, 0, true⟩

def cell (s : SimpleState op) (index : Nat) : BufferCell op :=
  s.buffer[index]?.getD ⟨false, op.outputStorage, false⟩

def startOperation (s : SimpleState op) (env : Env P V Ctx D) : Except (FUFault ε) (SimpleState op × Env P V Ctx D) :=
  match op.simulateTrigger (env.ports ∘ op.inputBinding) (s.cell s.nextSlot).outputs env.context with
  | .error e => .error (.operation e)
  | .ok (inputs, outputs, ready, context) =>
    .ok ({ s with
        buffer := s.buffer.set s.nextSlot ⟨true, outputs, ready⟩
        pendingOperations := s.pendingOperations + 1
        hasPendingOperations := true },
      { env with ports := writePorts op.inputBinding inputs env.ports, context := context })

def advanceClock (s : SimpleState op) (env : Env P V Ctx D) : SimpleState op × Env P V Ctx D :=
  let index := (s.nextSlot + 1) % s.buffer.length
  let oldestEntry := s.cell index
  let nextSlot := (s.nextSlot + 1) % s.buffer.length
  if oldestEntry.operation then
    ({ s with
        buffer := s.buffer.set index { oldestEntry with operation := false }
        pendingOperations := s.pendingOperations - 1
        hasPendingOperations := decide (s.pendingOperations - 1 > 0)
        nextSlot := nextSlot },
      { env with ports := writePorts op.outputBinding oldestEntry.outputs env.ports })
  else ({ s with nextSlot := nextSlot }, env)

end SimpleState

def simple (op : HWOperation P V Ctx ε) : Clocked (SimpleState op) (Env P V Ctx D) (FUFault ε) where
  start := SimpleState.startOperation
  advance s env := .ok (s.advanceClock env)
  hasPending s := s.hasPendingOperations

/-- The results in flight, by the number of clock advances since the trigger. -/
abbrev Line (op : HWOperation P V Ctx ε) := Nat → Option (Fin op.numberOfOutputs → V)

end executors

namespace Line
variable {P V Ctx ε : Type} {op : HWOperation P V Ctx ε}

/-- All results are one advance older, and those of the last stage are gone. -/
def older (line : Line op) : Line op
  | 0 => none
  | age + 1 => if age + 1 < op.latency then line age else none

/-- The results that have their whole latency behind them with the next advance. -/
def last (line : Line op) : Option (Fin op.numberOfOutputs → V) := line (op.latency - 1)

/-- Nothing is in flight. -/
def Empty (line : Line op) : Prop := ∀ age, line age = none

theorem older_empty {line : Line op} (h : line.Empty) : line.older = line := by
  funext age
  rw [h age]
  cases age with
  | zero => rfl
  | succ age =>
    dsimp only [older]
    rw [h age, ite_self]

end Line

namespace SimpleState
variable {P V Ctx D ε : Type} {op : HWOperation P V Ctx ε}

/-- The cell of the trigger `age` advances ago. -/
def slot (s : SimpleState op) (age : Nat) : Nat :=
  if age ≤ s.nextSlot then s.nextSlot - age else s.nextSlot + op.latency - age

/-- What is in flight in a cell. -/
def inFlight (s : SimpleState op) (index : Nat) : Option (Fin op.numberOfOutputs → V) :=
  if (s.cell index).operation then some (s.cell index).outputs else none

/-- The ring buffer holds the line. -/
structure Holds (s : SimpleState op) (line : Line op) : Prop where
  length : s.buffer.length = op.latency
  nextSlot : s.nextSlot < op.latency
  cells : ∀ age, age < op.latency → line age = s.inFlight (s.slot age)
  beyond : ∀ age, op.latency ≤ age → line age = none
  pending : s.pendingOperations = s.buffer.countP (·.operation)
  flag : s.pendingOperations ≠ 0 → s.hasPendingOperations = true

theorem holds_create : (create op).Holds fun _ => none where
  length := List.length_replicate
  nextSlot := op.latency_pos
  cells age _ := by
    have hcell (i : Nat) : ((create op).cell i).operation = false := by
      unfold cell create
      rw [List.getElem?_replicate]
      split <;> rfl
    rw [inFlight, hcell, if_neg (by simp)]
  beyond _ _ := rfl
  pending := by simp [create, List.countP_replicate]
  flag _ := rfl

theorem slot_zero (s : SimpleState op) : s.slot 0 = s.nextSlot := by
  unfold slot
  rw [if_pos (Nat.zero_le _), Nat.sub_zero]

theorem slot_lt {s : SimpleState op} (hs : s.nextSlot < op.latency) {age : Nat} (h : age < op.latency) :
    s.slot age < op.latency := by
  unfold slot
  split_ifs <;> omega

/-- Cells of different ages are different. -/
theorem slot_inj {s : SimpleState op} {age age' : Nat} (h : age < op.latency) (h' : age' < op.latency)
    (heq : s.slot age = s.slot age') : age = age' := by
  unfold slot at heq
  split_ifs at heq <;> omega

/-- The cell after the next one is that of the oldest trigger. -/
theorem slot_last {s : SimpleState op} (hs : s.nextSlot < op.latency) :
    s.slot (op.latency - 1) = (s.nextSlot + 1) % op.latency := by
  unfold slot
  by_cases h : s.nextSlot + 1 = op.latency
  · rw [if_pos (by omega), h, Nat.mod_self]
    omega
  · rw [Nat.mod_eq_of_lt (by omega)]
    split_ifs <;> omega

theorem slot_next {s t : SimpleState op} (hs : s.nextSlot < op.latency)
    (ht : t.nextSlot = (s.nextSlot + 1) % op.latency) {age : Nat} (h : age + 1 < op.latency) :
    t.slot (age + 1) = s.slot age := by
  unfold slot
  rw [ht]
  by_cases hlast : s.nextSlot + 1 = op.latency
  · rw [hlast, Nat.mod_self]
    split_ifs <;> omega
  · rw [Nat.mod_eq_of_lt (by omega)]
    split_ifs <;> omega

theorem cell_set {s t : SimpleState op} {i : Nat} (hi : i < s.buffer.length) {c : BufferCell op}
    (ht : t.buffer = s.buffer.set i c) (j : Nat) : t.cell j = if j = i then c else s.cell j := by
  unfold cell
  rw [ht, List.getElem?_set]
  by_cases hj : j = i
  · subst hj
    simp [hi]
  · simp [hj, Ne.symm hj]

theorem countP_set {s : SimpleState op} {i : Nat} (hi : i < s.buffer.length) (c : BufferCell op) :
    (s.buffer.set i c).countP (·.operation) + (if (s.cell i).operation then 1 else 0) =
      s.buffer.countP (·.operation) + (if c.operation then 1 else 0) := by
  have hcell : s.cell i = s.buffer[i] := by
    unfold cell
    rw [List.getElem?_eq_getElem hi]
    rfl
  rw [List.countP_set hi, hcell]
  have hpos : s.buffer[i].operation = true → 0 < s.buffer.countP (·.operation) := fun h =>
    List.countP_pos_iff.2 ⟨_, List.getElem_mem hi, h⟩
  split_ifs with h <;> simp_all

/-- With the flag down the buffer is empty. -/
theorem empty_of_not_pending {s : SimpleState op} {line : Line op} (h : s.Holds line)
    (hflag : s.hasPendingOperations = false) : line.Empty := by
  intro age
  by_cases hage : age < op.latency
  · have hzero : s.buffer.countP (·.operation) = 0 := by
      rw [← h.pending]
      by_contra hne
      rw [h.flag hne] at hflag
      cases hflag
    have hslot : s.slot age < s.buffer.length := h.length ▸ slot_lt h.nextSlot hage
    have hfree := List.countP_eq_zero.1 hzero _ (List.getElem_mem hslot)
    rw [h.cells age hage, inFlight, cell, List.getElem?_eq_getElem hslot]
    exact if_neg hfree
  · exact h.beyond age (by omega)

end SimpleState

section executors
variable {P V Ctx D ε : Type} [DecidableEq P]

/-- A trigger goes to the begin of the line, with these values in the outputs before it. -/
def enterLineOn (op : HWOperation P V Ctx ε) (old : Fin op.numberOfOutputs → V) (line : Line op) (env : Env P V Ctx D) :
    Except (FUFault ε) (Line op × Env P V Ctx D) :=
  match op.simulateTrigger (env.ports ∘ op.inputBinding) old env.context with
  | .error e => .error (.operation e)
  | .ok (inputs, outputs, _, context) =>
    .ok (Function.update line 0 (some outputs),
      { env with ports := writePorts op.inputBinding inputs env.ports, context := context })

/-- A trigger goes to the begin of the line. -/
def enterLine (op : HWOperation P V Ctx ε) (line : Line op) (env : Env P V Ctx D) :
    Except (FUFault ε) (Line op × Env P V Ctx D) :=
  match op.simulateTrigger (env.ports ∘ op.inputBinding) op.outputStorage env.context with
  | .error e => .error (.operation e)
  | .ok (inputs, outputs, _, context) =>
    .ok (Function.update line 0 (some outputs),
      { env with ports := writePorts op.inputBinding inputs env.ports, context := context })

/-- The results at the end of the line go to the ports. -/
def shiftLine (op : HWOperation P V Ctx ε) (line : Line op) (env : Env P V Ctx D) :
    Except (FUFault ε) (Line op × Env P V Ctx D) :=
  .ok (line.older, match line.last with
    | some outputs => { env with ports := writePorts op.outputBinding outputs env.ports }
    | none => env)

namespace SimpleState
variable {op : HWOperation P V Ctx ε}

/-- The operation finds what its cell has held before. -/
theorem startOperation_agreeOn {s : SimpleState op} {line : Line op} (h : s.Holds line) (hready : line 0 = none)
    (env : Env P V Ctx D) :
    Agree Holds (s.startOperation env) (enterLineOn op (s.cell s.nextSlot).outputs line env) := by
  unfold startOperation enterLineOn
  cases op.simulateTrigger (env.ports ∘ op.inputBinding) (s.cell s.nextSlot).outputs env.context with
  | error e => rfl
  | ok r =>
    obtain ⟨inputs, outputs, ready, context⟩ := r
    dsimp only
    refine ⟨?_, rfl⟩
    have hslot : s.nextSlot < s.buffer.length := h.length ▸ h.nextSlot
    have hfree : (s.cell s.nextSlot).operation = false := by
      have hcell := h.cells 0 op.latency_pos
      rw [hready, slot_zero, inFlight] at hcell
      by_contra hbusy
      rw [if_pos (by simpa using hbusy)] at hcell
      cases hcell
    have hcount := countP_set hslot ⟨true, outputs, ready⟩
    rw [hfree, if_neg (by simp), if_pos rfl, Nat.add_zero, ← h.pending] at hcount
    refine ⟨List.length_set.trans h.length, h.nextSlot, fun age hage => ?_, fun age hage => ?_, hcount.symm,
      fun _ => rfl⟩
    · rw [inFlight, cell_set hslot rfl]
      by_cases hzero : age = 0
      · rw [hzero, slot_zero, if_pos rfl, Function.update_self]
        rfl
      · have hother : s.slot age ≠ s.nextSlot := fun heq =>
          hzero (slot_inj hage op.latency_pos (heq.trans (slot_zero s).symm))
        rw [Function.update_of_ne hzero, h.cells age hage]
        exact (congrArg (fun c : BufferCell op => if c.operation then some c.outputs else none) (if_neg hother)).symm
    · have hpos := op.latency_pos
      rw [Function.update_of_ne (by omega)]
      exact h.beyond age hage

theorem startOperation_agree (hop : op.WritesOutputs) {s : SimpleState op} {line : Line op} (h : s.Holds line)
    (hready : line 0 = none) (env : Env P V Ctx D) : Agree Holds (s.startOperation env) (enterLine op line env) := by
  have hagree := startOperation_agreeOn h hready env
  unfold enterLineOn at hagree
  rw [hop _ (s.cell s.nextSlot).outputs op.outputStorage] at hagree
  exact hagree

theorem advanceClock_agree {s : SimpleState op} {line : Line op} (h : s.Holds line) (env : Env P V Ctx D) :
    Agree Holds (ε := FUFault ε) (.ok (s.advanceClock env)) (shiftLine op line env) := by
  have hpos := op.latency_pos
  have hslot : (s.nextSlot + 1) % op.latency < s.buffer.length := by
    rw [h.length]
    exact Nat.mod_lt _ hpos
  have hlast : line.last = s.inFlight ((s.nextSlot + 1) % op.latency) := by
    rw [← slot_last h.nextSlot]
    exact h.cells _ (by omega)
  -- all other cells get one advance older
  have hcells {t : SimpleState op} (hnext : t.nextSlot = (s.nextSlot + 1) % op.latency)
      (hfree : (t.cell ((s.nextSlot + 1) % op.latency)).operation = false)
      (hothers : ∀ j, j ≠ (s.nextSlot + 1) % op.latency → t.cell j = s.cell j) :
      ∀ age, age < op.latency → line.older age = t.inFlight (t.slot age) := by
    intro age hage
    cases age with
    | zero =>
      rw [slot_zero, hnext, inFlight, hfree]
      rfl
    | succ age =>
      have hne : s.slot age ≠ (s.nextSlot + 1) % op.latency := by
        rw [← slot_last h.nextSlot]
        intro heq
        have := slot_inj (by omega) (by omega) heq
        omega
      rw [slot_next h.nextSlot hnext hage, inFlight, hothers _ hne, Line.older, if_pos hage]
      exact h.cells age (by omega)
  have hbeyond : ∀ age, op.latency ≤ age → line.older age = none := by
    intro age hage
    cases age with
    | zero => rfl
    | succ age => exact if_neg (by omega)
  unfold advanceClock shiftLine
  rw [hlast, inFlight, h.length]
  dsimp only
  by_cases hbusy : (s.cell ((s.nextSlot + 1) % op.latency)).operation = true
  · rw [if_pos hbusy, if_pos hbusy]
    refine ⟨?_, rfl⟩
    have hcount := countP_set hslot { s.cell ((s.nextSlot + 1) % op.latency) with operation := false }
    rw [if_pos hbusy, if_neg (by simp), Nat.add_zero, ← h.pending] at hcount
    refine ⟨List.length_set.trans h.length, Nat.mod_lt _ hpos, hcells rfl ?_ ?_, hbeyond, ?_, ?_⟩
    · rw [cell_set hslot rfl, if_pos rfl]
    · intro j hj
      rw [cell_set hslot rfl, if_neg hj]
    · exact Nat.sub_eq_of_eq_add hcount.symm
    · exact fun hne => decide_eq_true (Nat.pos_of_ne_zero hne)
  · rw [if_neg hbusy, if_neg hbusy]
    refine ⟨?_, rfl⟩
    have hfree : (s.cell ((s.nextSlot + 1) % op.latency)).operation = false := by simpa using hbusy
    exact ⟨h.length, Nat.mod_lt _ hpos, hcells rfl hfree fun _ _ => rfl, hbeyond, h.pending, h.flag⟩

end SimpleState

/-- `SimpleOperationExecutor` is a line of results that all leave at its end. -/
def simpleComponent (op : HWOperation P V Ctx ε) (hop : op.WritesOutputs) :
    Component (simple (D := D) op) (Line op) where
  enter := enterLine op
  shift := shiftLine op
  Rel := SimpleState.Holds
  Ready line := line 0 = none
  Idle := Line.Empty
  start_agree h hready := SimpleState.startOperation_agree hop h hready _
  advance_agree h := SimpleState.advanceClock_agree h _
  ready_shift h := by
    cases h
    rfl
  idle_of_not_pending := SimpleState.empty_of_not_pending
  shift_idle {line env} h := by
    unfold shiftLine
    rw [Line.older_empty h, Line.last, h]

end executors

end Tce.Simulator
