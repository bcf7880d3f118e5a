/-!
# The control of a program

What the simulator keeps for it: a jump that is pending until its delay slots
are over, and the values that a guard had in the last cycles.
-/

namespace Tce.Simulator

abbrev InstructionAddress := BitVec 32

/-- `JUMP` or `CALL`, with the value of its operand. -/
structure ControlOperation where
  target : InstructionAddress
  saveReturnAddress : Bool
  deriving DecidableEq, Repr

structure GCUState where
  latency : Nat
  programCounter : InstructionAddress
  returnAddressRegister : InstructionAddress
  newProgramCounter : InstructionAddress
  operationPending : Bool
  operationPendingTime : Int
  idle : Bool
  deriving DecidableEq, Repr

namespace GCUState

/-- The unit of a machine when a program is started. -/
def create (delaySlots : Nat) (initialPC : InstructionAddress) : GCUState :=
  ⟨delaySlots + 1, initialPC, 0, 0, false, 0, false⟩

section Cycle
variable (s : GCUState) (op : ControlOperation)

def setProgramCounter (value : InstructionAddress) : Except String GCUState :=
  if s.operationPending && s.latency != s.operationPendingTime then .error "Cannot have jumps in delay slots."
  else .ok { s with newProgramCounter := value, operationPending := true, operationPendingTime := s.latency }

def setReturnAddress : GCUState := { s with returnAddressRegister := s.programCounter + BitVec.ofNat 32 s.latency }

/-- `TransportPipeline::startOperation`. -/
def startOperation : Except String GCUState := do
  let s ← s.setProgramCounter op.target
  return if op.saveReturnAddress then s.setReturnAddress else s

def advanceClock : GCUState :=
  let s := if s.operationPending then { s with operationPendingTime := s.operationPendingTime - 1 } else s
  let s := if s.operationPending && s.operationPendingTime ≤ 0 then
      { s with programCounter := s.newProgramCounter, operationPending := false }
    else s
  { s with idle := !s.operationPending }

/-- What `simulateCycle` does to the unit, with the operation that is triggered, if any. -/
def simulateCycle (trigger : Option ControlOperation) : Except String GCUState := do
  let s ← match trigger with
    | some op => startOperation { s with idle := false } op
    | none => .ok s
  let s := { s with programCounter := s.programCounter + 1 }
  return if s.idle then s else s.advanceClock

def run (triggers : List (Option ControlOperation)) : Except String GCUState :=
  triggers.foldlM (fun s trigger => s.simulateCycle trigger) s

/-- The state after an operation and some of its delay slots. -/
def delayed (k : Nat) : GCUState :=
  let past := decide (s.latency ≤ k + 1)
  { latency := s.latency
    programCounter := if past then op.target else s.programCounter + BitVec.ofNat 32 (k + 1)
    returnAddressRegister :=
      if op.saveReturnAddress then s.programCounter + BitVec.ofNat 32 s.latency else s.returnAddressRegister
    newProgramCounter := op.target
    operationPending := !past
    operationPendingTime := s.latency - (k + 1)
    idle := past }

end Cycle

variable {s : GCUState} {op : ControlOperation} {k delaySlots : Nat}

theorem advanceClock_delayed (hk : k < s.latency) {t : GCUState} (ht : t = { s.delayed op k with
      programCounter := s.programCounter + BitVec.ofNat 32 (k + 1)
      operationPending := true
      operationPendingTime := (s.latency : Int) - k
      idle := false }) : t.advanceClock = s.delayed op k := by
  subst ht
  unfold advanceClock
  simp only [delayed, if_true, Bool.true_and, decide_eq_true_eq, Int.sub_sub]
  by_cases hover : s.latency ≤ k + 1
  · rw [if_pos (show (s.latency : Int) - (k + 1) ≤ 0 by omega), if_pos hover, decide_eq_true hover]
    rfl
  · rw [if_neg (show ¬(s.latency : Int) - (k + 1) ≤ 0 by omega), if_neg hover, decide_eq_false hover]
    rfl

theorem simulateCycle_none (hs : s.operationPending = false) :
    s.simulateCycle none = .ok { s with programCounter := s.programCounter + 1, idle := true } := by
  unfold simulateCycle advanceClock
  cases hidle : s.idle <;> simp [hs, hidle, pure, Except.pure, bind, Except.bind]

theorem simulateCycle_some (hs : s.operationPending = false) (hpos : 0 < s.latency) :
    s.simulateCycle (some op) = .ok (s.delayed op 0) := by
  rw [← advanceClock_delayed hpos rfl]
  unfold simulateCycle startOperation setProgramCounter
  simp only [hs, Bool.false_and, Bool.false_eq_true, if_false, pure, Except.pure, bind, Except.bind]
  cases hsave : op.saveReturnAddress <;> simp [setReturnAddress, delayed, hsave]

theorem simulateCycle_delayed (hk : k + 1 < s.latency) :
    (s.delayed op k).simulateCycle none = .ok (s.delayed op (k + 1)) := by
  rw [← advanceClock_delayed hk rfl]
  unfold simulateCycle
  simp [delayed, Nat.not_le.2 hk, pure, Except.pure, bind, Except.bind, BitVec.ofNat_add, BitVec.add_assoc]

/-- A jump is refused in the delay slots of another. -/
theorem simulateCycle_refused {op' : ControlOperation} (hk : k + 1 < s.latency) :
    (s.delayed op k).simulateCycle (some op') = .error "Cannot have jumps in delay slots." := by
  have hne : (s.latency : Int) ≠ s.latency - (k + 1) := by omega
  unfold simulateCycle startOperation setProgramCounter
  simp [delayed, Nat.not_le.2 hk, hne, bind, Except.bind]

theorem run_append (triggers later : List (Option ControlOperation)) :
    s.run (triggers ++ later) = s.run triggers >>= fun s => s.run later := List.foldlM_append

theorem run_concat {triggers : List (Option ControlOperation)} {t : GCUState} (h : s.run triggers = .ok t)
    (trigger : Option ControlOperation) : s.run (triggers ++ [trigger]) = t.simulateCycle trigger := by
  rw [run_append, h]
  exact bind_pure (t.simulateCycle trigger)

theorem run_replicate (hs : s.operationPending = false) (n : Nat) : s.run (List.replicate n none) =
    .ok { s with programCounter := s.programCounter + BitVec.ofNat 32 n, idle := s.idle || decide (0 < n) } := by
  induction n with
  | zero => exact congrArg Except.ok (by simp)
  | succ n ih =>
    rw [List.replicate_succ', run_concat ih, simulateCycle_none (by exact hs), BitVec.ofNat_add, ← BitVec.add_assoc]
    simp

/-- Instructions without a jump, a jump and some of its delay slots. -/
def block (n : Nat) (op : ControlOperation) (k : Nat) : List (Option ControlOperation) :=
  List.replicate n none ++ some op :: List.replicate k none

theorem run_block (hs : s.operationPending = false) (n : Nat) (hk : k < s.latency) : s.run (block n op k) =
    .ok (delayed { s with programCounter := s.programCounter + BitVec.ofNat 32 n } op k) := by
  unfold block
  induction k with
  | zero =>
    rw [List.replicate_zero, run_concat (run_replicate hs n)]
    exact simulateCycle_some hs hk
  | succ k ih =>
    rw [List.replicate_succ', ← List.cons_append, ← List.append_assoc, run_concat (ih (Nat.lt_of_succ_lt hk))]
    exact simulateCycle_delayed hk

/-- The counter and the return address after a jump and its delay slots. -/
def after (delaySlots : Nat) (at_ : InstructionAddress × InstructionAddress) (b : Nat × ControlOperation) :
    InstructionAddress × InstructionAddress :=
  (b.2.target, if b.2.saveReturnAddress then at_.1 + BitVec.ofNat 32 b.1 + BitVec.ofNat 32 (delaySlots + 1) else at_.2)

theorem run_blocks (blocks : List (Nat × ControlOperation)) : ∀ {s : GCUState}, s.operationPending = false →
    s.latency = delaySlots + 1 → ∃ t, s.run (blocks.flatMap fun b => block b.1 b.2 delaySlots) = .ok t ∧
      t.operationPending = false ∧ t.latency = delaySlots + 1 ∧ (t.programCounter, t.returnAddressRegister) =
        blocks.foldl (after delaySlots) (s.programCounter, s.returnAddressRegister) := by
  induction blocks with
  | nil => exact fun hs hlatency => ⟨_, rfl, hs, hlatency, rfl⟩
  | cons b blocks ih =>
    intro s hs hlatency
    have hover : decide (s.latency ≤ delaySlots + 1) = true := decide_eq_true (Nat.le_of_eq hlatency)
    obtain ⟨t, ht, hquiet, hlatency', hafter⟩ := ih
      (s := delayed { s with programCounter := s.programCounter + BitVec.ofNat 32 b.1 } b.2 delaySlots)
      (congrArg not hover) hlatency
    refine ⟨t, ?_, hquiet, hlatency', ?_⟩
    · rw [List.flatMap_cons, run_append, run_block hs b.1 (hlatency ▸ Nat.lt_succ_self delaySlots)]
      exact ht
    · rw [hafter, List.foldl_cons, after, ← hlatency]
      simp only [delayed, hlatency, Nat.le_refl, decide_true, if_true]

/-- **Jumps wait for their delay slots.** After any jumps the counter is where they lead. The instructions behind
a jump are executed before those at its target, and a jump in one of them is refused. -/
theorem delaySlots_run (delaySlots : Nat) (initialPC : InstructionAddress) (blocks : List (Nat × ControlOperation)) :
    ∃ t, (create delaySlots initialPC).run (blocks.flatMap fun b => block b.1 b.2 delaySlots) = .ok t ∧
      (t.programCounter, t.returnAddressRegister) = blocks.foldl (after delaySlots) (initialPC, 0) ∧
      (∀ n, ∃ u, t.run (List.replicate n none) = .ok u ∧ u.programCounter = t.programCounter + BitVec.ofNat 32 n) ∧
      ∀ n op, ∀ k < delaySlots, ∃ u, t.run (block n op k) = .ok u ∧
        u.programCounter = t.programCounter + BitVec.ofNat 32 n + BitVec.ofNat 32 (k + 1) ∧
        ∀ op', u.simulateCycle (some op') = .error "Cannot have jumps in delay slots." := by
  obtain ⟨t, ht, hquiet, hlatency, hafter⟩ := run_blocks blocks (s := create delaySlots initialPC) rfl rfl
  refine ⟨t, ht, hafter, fun n => ⟨_, run_replicate hquiet n, rfl⟩,
    fun n op k hk => ⟨_, run_block hquiet n (by omega), ?_, fun op' => ?_⟩⟩
  · exact if_neg (by simp; omega)
  · exact simulateCycle_refused (by dsimp only; omega)

end GCUState

/-! ## Guards -/

/-- The values of the register that a guard reads, in a circle; none is an access outside of it. -/
structure GuardState (V : Type) where
  history : List V
  position : Nat

namespace GuardState
variable {V : Type}

def create (value : V) (latency : Nat) : GuardState V := ⟨List.replicate latency value, 0⟩

def advanceClock (s : GuardState V) (target : V) : Option (GuardState V) :=
  if s.position < s.history.length then
    some ⟨s.history.set s.position target, (s.position + 1) % s.history.length⟩
  else none

def value (s : GuardState V) : Option V := s.history[s.position]?

/-- The guard after some cycles, with what the register holds at their ends. -/
def run (s : GuardState V) (register : Nat → V) : Nat → Option (GuardState V)
  | 0 => some s
  | n + 1 => (run s register n).bind fun s => s.advanceClock (register n)

theorem run_spec (initial : V) (register : Nat → V) (latency n : Nat) :
    ∃ history, (create initial (latency + 1)).run register n = some ⟨history, n % (latency + 1)⟩ ∧
      history.length = latency + 1 ∧ ∀ k ≤ latency, history[(n + k) % (latency + 1)]? =
        some (if n + k ≤ latency then initial else register (n + k - (latency + 1))) := by
  induction n with
  | zero =>
    refine ⟨_, rfl, List.length_replicate, fun k hk => ?_⟩
    rw [Nat.zero_add, Nat.mod_eq_of_lt (by omega), if_pos hk]
    exact List.getElem?_replicate_of_lt (by omega)
  | succ n ih =>
    obtain ⟨history, hrun, hlength, hvalues⟩ := ih
    have hlt : n % (latency + 1) < history.length := by
      rw [hlength]
      exact Nat.mod_lt n (Nat.succ_pos latency)
    refine ⟨history.set (n % (latency + 1)) (register n), ?_, by rw [List.length_set, hlength], fun k hk => ?_⟩
    · rw [run, hrun, Option.bind_some, advanceClock, if_pos hlt, hlength, Nat.mod_add_mod]
    · rw [show n + 1 + k = n + (k + 1) by omega]
      by_cases hlast : k = latency
      · rw [hlast, Nat.add_mod_right, List.getElem?_set_self hlt, if_neg (by omega), Nat.add_sub_cancel]
      · have hne : n % (latency + 1) ≠ (n + (k + 1)) % (latency + 1) := by
          intro heq
          have hdvd := Nat.dvd_of_mod_eq_zero (Nat.sub_mod_eq_zero_of_mod_eq heq.symm)
          rw [Nat.add_sub_cancel_left] at hdvd
          exact absurd (Nat.le_of_dvd (Nat.succ_pos k) hdvd) (by omega)
        rw [List.getElem?_set_ne hne]
        exact hvalues (k + 1) (by omega)

/-- **Guards have their latency** in every run: they show what the register held that many cycles ago. -/
theorem value_run (initial : V) (register : Nat → V) (latency n : Nat) :
    ((create initial (latency + 1)).run register n).bind value =
      some (if n ≤ latency then initial else register (n - (latency + 1))) := by
  obtain ⟨history, hrun, -, hvalues⟩ := run_spec initial register latency n
  rw [hrun]
  exact hvalues 0 (Nat.zero_le _)

end GuardState

end Tce.Simulator
