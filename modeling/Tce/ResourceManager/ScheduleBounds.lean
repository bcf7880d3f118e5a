import Tce.ResourceManager.SimpleBrokerDirector

/-!
# Bounds of the schedule

The director keeps the smallest and the largest cycle that is used. An assignment
widens the bounds. A removal narrows them: it passes the instructions that are
empty and looks at the moves of the first one that is not.
-/

namespace Tce.BrokerDirector

/-! ## Instructions -/

/-- The immediates of an instruction are known by the units they are written to. -/
structure Instruction (N U : Type) where
  moves : List N
  immediates : List U

namespace Instruction
variable {N U : Type} [DecidableEq N] [DecidableEq U]

def isUsed (ins : Instruction N U) : Bool := !(ins.moves.isEmpty && ins.immediates.isEmpty)

/-- A move that is in the instruction already is moved to its end. -/
def addMove (ins : Instruction N U) (node : N) : Instruction N U :=
  { ins with moves := ins.moves.erase node ++ [node] }

def removeMove (ins : Instruction N U) (node : N) : Instruction N U := { ins with moves := ins.moves.erase node }

def addImmediate (ins : Instruction N U) (unit : U) : Instruction N U :=
  { ins with immediates := ins.immediates ++ [unit] }

def removeImmediate (ins : Instruction N U) (unit : U) : Instruction N U :=
  { ins with immediates := ins.immediates.erase unit }

end Instruction

/-- The cycle and the unit in which the long immediate of a move is written. -/
structure ImmediateWrite (U : Type) where
  cycle : Int
  unit : U

/-- The bounds, and the nodes that are assigned with what their assignment has put into the instructions. -/
structure Schedule (N U : Type) where
  knownMaxCycle : Int
  knownMinCycle : Int
  instructions : Int → Instruction N U
  cycle : N → Option Int
  write : N → Option (ImmediateWrite U)

/-- The cycle is taken as an unsigned number. -/
def instructionIndex (initiationInterval : Nat) (cycle : Int) : Int :=
  if initiationInterval ≠ 0 then cycle % 2 ^ 32 % initiationInterval else cycle

/-- The cycles before its own in which the guard of a move has to be there. -/
def guardSlack (guardLatency : Int) : Int := max 0 (guardLatency - 1)

/-! ## Bounds -/

/-- None is an assertion that fails: a bound that is lowered must not be negative. -/
def lower (bound cycle : Int) : Option Int :=
  if cycle < bound then (if 0 ≤ cycle then some cycle else none) else some bound

def widenMin (knownMin first : Int) (write : Option Int) : Option Int :=
  (lower knownMin first).bind fun min => match write with
    | some write => lower min write
    | none => some min

/-- At most so many cycles are passed, from the largest one on. -/
def narrowMax (used : Int → Bool) : Nat → Int → Int
  | 0, max => max
  | count + 1, max => if used max then max else narrowMax used count (max - 1)

/-- At most so many cycles are passed, from the smallest one on. -/
def narrowMin (used : Int → Bool) : Nat → Int → Int
  | 0, min => min
  | count + 1, min => if used min then min else narrowMin used count (min + 1)

/-- How far the guards of the moves reach that are in the cycle. -/
def reach {N : Type} (guardLatency : N → Int) (cycle : Int) (moves : List N) : Int :=
  moves.foldl (fun min move =>
    if cycle - guardSlack (guardLatency move) < min then cycle - guardSlack (guardLatency move) else min) cycle

namespace Schedule
variable {N U : Type} [DecidableEq N] [DecidableEq U] (initiationInterval : Nat) (guardLatency : N → Int)
  (s : Schedule N U)

def empty : Schedule N U := ⟨-1, INT_MAX, fun _ => ⟨[], []⟩, fun _ => none, fun _ => none⟩

def instruction (cycle : Int) : Instruction N U := s.instructions (instructionIndex initiationInterval cycle)

/-- The instruction of the cycle is changed. -/
def change (cycle : Int) (f : Instruction N U → Instruction N U) : Schedule N U :=
  let index := instructionIndex initiationInterval cycle
  { s with instructions := Function.update s.instructions index (f (s.instructions index)) }

/-- The move is put into the instruction of its cycle, and its immediate into that of the write cycle. -/
def placed (node : N) (cycle : Int) (write : Option (ImmediateWrite U)) : Schedule N U :=
  let s' := match write with
    | some write => s.change initiationInterval write.cycle (·.addImmediate write.unit)
    | none => s
  let s' := s'.change initiationInterval cycle (·.addMove node)
  { s' with cycle := Function.update s.cycle node (some cycle), write := Function.update s.write node write }

/-- The move and its immediate are taken out. -/
def removed (node : N) (cycle : Int) : Schedule N U :=
  let s' := s.change initiationInterval cycle (·.removeMove node)
  let s' := match s.write node with
    | some write => s'.change initiationInterval write.cycle (·.removeImmediate write.unit)
    | none => s'
  { s' with cycle := Function.update s.cycle node none, write := Function.update s.write node none }

/-- `assign` when all brokers have found a resource; `write` is what the broker of immediate units has found. -/
def assign (node : N) (cycle : Int) (write : Option (ImmediateWrite U)) : Option (Schedule N U) := do
  let max := if s.knownMaxCycle < cycle then cycle else s.knownMaxCycle
  let min ← widenMin s.knownMinCycle (cycle - guardSlack (guardLatency node)) (write.map (·.cycle))
  return { s.placed initiationInterval node cycle write with knownMaxCycle := max, knownMinCycle := min }

/-- None is the exception for a node that is not placed. -/
def unassign (node : N) : Option (Schedule N U) := do
  let cycle ← s.cycle node
  let minCycleImmSrc := (s.write node).any (·.cycle = s.knownMinCycle)
  let s' := s.removed initiationInterval node cycle
  let used := fun cycle => (s'.instruction initiationInterval cycle).isUsed
  let max := if cycle = s.knownMaxCycle then
      narrowMax used (cycle + 1 - s.knownMinCycle).toNat cycle
    else s.knownMaxCycle
  let min := if s.knownMinCycle = cycle - guardSlack (guardLatency node) ∨ minCycleImmSrc = true then
      let first := narrowMin used (max + 1 - s.knownMinCycle).toNat s.knownMinCycle
      if first ≤ max then reach guardLatency first (s'.instruction initiationInterval first).moves else first
    else s.knownMinCycle
  return { s' with knownMaxCycle := max, knownMinCycle := min }

def smallestCycle : Int := s.knownMinCycle

/-- `highestKnownCycle` is that of the broker of the pipelines. -/
def largestCycle (highestKnownCycle : Int) : Int := max s.knownMaxCycle highestKnownCycle

inductive Call (N U : Type) where
  | assign (node : N) (cycle : Int) (write : Option (ImmediateWrite U))
  | unassign (node : N)

/-- Calls that succeed. A node whose source is an immediate register already is given no register, and an
instruction has one immediate for a unit. -/
inductive Step : Schedule N U → Call N U → Schedule N U → Prop
  | assign {s t : Schedule N U} {node : N} {cycle : Int} {write : Option (ImmediateWrite U)} :
    0 ≤ cycle → cycle ≠ INT_MAX → (s.cycle node = none ∨ s.cycle node = some cycle) → s.write node = none →
    (∀ w, write = some w → w.unit ∉ (s.instruction initiationInterval w.cycle).immediates) →
    s.assign initiationInterval guardLatency node cycle write = some t → Step s (.assign node cycle write) t
  | unassign {s t : Schedule N U} {node : N} : s.unassign initiationInterval guardLatency node = some t →
    Step s (.unassign node) t

/-- The states that calls reach which meet a condition. -/
inductive Reached (meets : Schedule N U → Call N U → Prop) : Schedule N U → Prop
  | empty : Reached meets empty
  | step {s t : Schedule N U} {call : Call N U} : Reached meets s → meets s call →
    Step initiationInterval guardLatency s call t → Reached meets t

/-! ## Walks over the instructions -/

theorem narrowMax_spec (used : Int → Bool) (count : Nat) (max : Int) :
    narrowMax used count max ≤ max ∧ ∀ d, narrowMax used count max < d → d ≤ max → used d = false := by
  induction count generalizing max with
  | zero => exact ⟨Int.le_refl _, fun d hlt hle => absurd hlt (Int.not_lt.2 hle)⟩
  | succ count ih =>
    unfold narrowMax
    split
    · exact ⟨Int.le_refl _, fun d hlt hle => absurd hlt (Int.not_lt.2 hle)⟩
    · next hused =>
      obtain ⟨hle, hunused⟩ := ih (max - 1)
      refine ⟨by omega, fun d hlt hled => ?_⟩
      by_cases heq : d = max
      · subst heq
        exact Bool.not_eq_true _ ▸ hused
      · exact hunused d hlt (by omega)

theorem narrowMin_spec (used : Int → Bool) (count : Nat) (min : Int) :
    (∀ d, min ≤ d → d < narrowMin used count min → used d = false) ∧
      (narrowMin used count min < min + count → used (narrowMin used count min) = true) := by
  induction count generalizing min with
  | zero =>
    unfold narrowMin
    exact ⟨fun d hle hlt => absurd hlt (Int.not_lt.2 hle), fun hlt => by omega⟩
  | succ count ih =>
    unfold narrowMin
    split
    · next hused => exact ⟨fun d hle hlt => absurd hlt (Int.not_lt.2 hle), fun _ => hused⟩
    · next hused =>
      obtain ⟨hunused, hstop⟩ := ih (min + 1)
      refine ⟨fun d hle hlt => ?_, fun hlt => hstop (by omega)⟩
      by_cases heq : d = min
      · subst heq
        exact Bool.not_eq_true _ ▸ hused
      · exact hunused d (by omega) hlt

omit [DecidableEq N] [DecidableEq U] in
theorem reach_le (first : Int) (moves : List N) :
    reach guardLatency first moves ≤ first ∧
      ∀ m ∈ moves, reach guardLatency first moves ≤ first - guardSlack (guardLatency m) := by
  have hfold (min : Int) : moves.foldl (fun min move => if first - guardSlack (guardLatency move) < min then
      first - guardSlack (guardLatency move) else min) min ≤ min ∧
      ∀ m ∈ moves, moves.foldl (fun min move => if first - guardSlack (guardLatency move) < min then
        first - guardSlack (guardLatency move) else min) min ≤ first - guardSlack (guardLatency m) := by
    induction moves generalizing min with
    | nil => exact ⟨Int.le_refl _, nofun⟩
    | cons move moves ih =>
      rw [List.foldl_cons]
      generalize hmin : (if first - guardSlack (guardLatency move) < min then first - guardSlack (guardLatency move)
        else min) = min'
      have hle : min' ≤ min ∧ min' ≤ first - guardSlack (guardLatency move) := by
        rw [← hmin]
        split <;> omega
      obtain ⟨hmin', hmoves⟩ := ih min'
      refine ⟨Int.le_trans hmin' hle.1, fun m hm => ?_⟩
      rcases List.mem_cons.1 hm with rfl | hm
      · exact Int.le_trans hmin' hle.2
      · exact hmoves m hm
  exact hfold first

theorem lower_spec {bound cycle min : Int} (h : lower bound cycle = some min) : min ≤ bound ∧ min ≤ cycle := by
  unfold lower at h
  split at h
  · split at h
    · cases h
      omega
    · cases h
  · cases h
    omega

theorem widenMin_spec {knownMin first min : Int} {write : Option Int} (h : widenMin knownMin first write = some min) :
    min ≤ knownMin ∧ min ≤ first ∧ ∀ w, write = some w → min ≤ w := by
  obtain ⟨min', hmin', h⟩ := Option.bind_eq_some_iff.1 h
  obtain ⟨hbound, hfirst⟩ := lower_spec hmin'
  cases write with
  | none =>
    cases h
    exact ⟨hbound, hfirst, nofun⟩
  | some w =>
    obtain ⟨hmin, hwrite⟩ := lower_spec h
    refine ⟨Int.le_trans hmin hbound, Int.le_trans hmin hfirst, ?_⟩
    rintro w' ⟨⟩
    exact hwrite

/-! ## Instructions after a call -/

variable {initiationInterval guardLatency s}

omit [DecidableEq N] [DecidableEq U] in
theorem instruction_change (s : Schedule N U) (cycle d : Int) (f : Instruction N U → Instruction N U) :
    (s.change initiationInterval cycle f).instruction initiationInterval d =
      if instructionIndex initiationInterval d = instructionIndex initiationInterval cycle then
        f (s.instruction initiationInterval d)
      else s.instruction initiationInterval d := by
  unfold change instruction
  dsimp only
  split
  · next heq => rw [heq, Function.update_self]
  · next hne => exact Function.update_of_ne hne _ _

omit [DecidableEq U] in
theorem mem_moves_addMove {node m : N} (s : Schedule N U) (cycle d : Int) :
    m ∈ ((s.change initiationInterval cycle (·.addMove node)).instruction initiationInterval d).moves ↔
      m ∈ (s.instruction initiationInterval d).moves ∨
        instructionIndex initiationInterval d = instructionIndex initiationInterval cycle ∧ m = node := by
  rw [instruction_change]
  split
  · next heq =>
    by_cases hm : m = node
    · simp [Instruction.addMove, heq, hm]
    · simp [Instruction.addMove, hm, List.mem_erase_of_ne hm]
  · next hne => simp [hne]

omit [DecidableEq U] in
theorem mem_moves_removeMove {node m : N} (s : Schedule N U) (cycle d : Int) (hne : m ≠ node) :
    m ∈ ((s.change initiationInterval cycle (·.removeMove node)).instruction initiationInterval d).moves ↔
      m ∈ (s.instruction initiationInterval d).moves := by
  rw [instruction_change]
  split
  · exact List.mem_erase_of_ne hne
  · rfl

omit [DecidableEq N] [DecidableEq U] in
theorem mem_immediates_addImmediate {unit u : U} (s : Schedule N U) (cycle d : Int) :
    u ∈ ((s.change initiationInterval cycle (·.addImmediate unit)).instruction initiationInterval d).immediates ↔
      u ∈ (s.instruction initiationInterval d).immediates ∨
        instructionIndex initiationInterval d = instructionIndex initiationInterval cycle ∧ u = unit := by
  rw [instruction_change]
  split
  · next heq => simp [Instruction.addImmediate, heq]
  · next hne => simp [hne]

omit [DecidableEq N] in
theorem mem_immediates_removeImmediate {unit u : U} (s : Schedule N U) (cycle d : Int)
    (hne : instructionIndex initiationInterval d = instructionIndex initiationInterval cycle → u ≠ unit) :
    u ∈ ((s.change initiationInterval cycle (·.removeImmediate unit)).instruction initiationInterval d).immediates ↔
      u ∈ (s.instruction initiationInterval d).immediates := by
  rw [instruction_change]
  split
  · next heq => exact List.mem_erase_of_ne (hne heq)
  · rfl

omit [DecidableEq N] [DecidableEq U] in
theorem moves_change {f : Instruction N U → Instruction N U} (hf : ∀ ins, (f ins).moves = ins.moves)
    (s : Schedule N U) (cycle d : Int) :
    ((s.change initiationInterval cycle f).instruction initiationInterval d).moves =
      (s.instruction initiationInterval d).moves := by
  rw [instruction_change]
  split
  · exact hf _
  · rfl

omit [DecidableEq N] [DecidableEq U] in
theorem immediates_change {f : Instruction N U → Instruction N U} (hf : ∀ ins, (f ins).immediates = ins.immediates)
    (s : Schedule N U) (cycle d : Int) :
    ((s.change initiationInterval cycle f).instruction initiationInterval d).immediates =
      (s.instruction initiationInterval d).immediates := by
  rw [instruction_change]
  split
  · exact hf _
  · rfl

omit [DecidableEq U] in
theorem mem_moves_placed {node m : N} {cycle d : Int} {write : Option (ImmediateWrite U)} :
    m ∈ ((s.placed initiationInterval node cycle write).instruction initiationInterval d).moves ↔
      m ∈ (s.instruction initiationInterval d).moves ∨
        instructionIndex initiationInterval d = instructionIndex initiationInterval cycle ∧ m = node := by
  unfold placed
  cases write with
  | none => exact mem_moves_addMove s cycle d
  | some write =>
    refine (mem_moves_addMove _ cycle d).trans ?_
    rw [moves_change (f := fun ins => ins.addImmediate write.unit) fun _ => rfl]

omit [DecidableEq U] in
theorem mem_immediates_placed {node : N} {u : U} {cycle d : Int} {write : Option (ImmediateWrite U)} :
    u ∈ ((s.placed initiationInterval node cycle write).instruction initiationInterval d).immediates ↔
      u ∈ (s.instruction initiationInterval d).immediates ∨ ∃ w, write = some w ∧
        instructionIndex initiationInterval d = instructionIndex initiationInterval w.cycle ∧ u = w.unit := by
  unfold placed
  cases write with
  | none =>
    rw [or_iff_left (by simp)]
    exact iff_of_eq (congrArg (u ∈ ·) (immediates_change (f := fun ins => ins.addMove node) (fun _ => rfl) s cycle d))
  | some write =>
    refine (iff_of_eq (congrArg (u ∈ ·)
      (immediates_change (f := fun ins => ins.addMove node) (fun _ => rfl) _ cycle d))).trans ?_
    refine (mem_immediates_addImmediate s write.cycle d).trans (or_congr_right ?_)
    simp

theorem mem_moves_removed {node m : N} {cycle d : Int} (hne : m ≠ node) :
    m ∈ ((s.removed initiationInterval node cycle).instruction initiationInterval d).moves ↔
      m ∈ (s.instruction initiationInterval d).moves := by
  unfold removed
  cases s.write node with
  | none => exact mem_moves_removeMove s cycle d hne
  | some write =>
    refine (iff_of_eq (congrArg (m ∈ ·)
      (moves_change (f := fun ins => ins.removeImmediate write.unit) (fun _ => rfl) _ write.cycle d))).trans ?_
    exact mem_moves_removeMove s cycle d hne

theorem mem_immediates_removed {node : N} {u : U} {cycle d : Int}
    (hne : ∀ w, s.write node = some w →
      instructionIndex initiationInterval d = instructionIndex initiationInterval w.cycle → u ≠ w.unit) :
    u ∈ ((s.removed initiationInterval node cycle).instruction initiationInterval d).immediates ↔
      u ∈ (s.instruction initiationInterval d).immediates := by
  unfold removed
  cases hwrite : s.write node with
  | none =>
    exact iff_of_eq (congrArg (u ∈ ·)
      (immediates_change (f := fun ins => ins.removeMove node) (fun _ => rfl) s cycle d))
  | some write =>
    refine (mem_immediates_removeImmediate _ write.cycle d (hne write hwrite)).trans ?_
    rw [immediates_change (f := fun ins => ins.removeMove node) fun _ => rfl]

/-! ## Invariants -/

/-- What is assigned is in its instruction, and the bounds are those of the cycles in which something is. -/
structure Inv (initiationInterval : Nat) (s : Schedule N U) : Prop where
  moves : ∀ node cycle, s.cycle node = some cycle → node ∈ (s.instruction initiationInterval cycle).moves
  immediates : ∀ node w, s.write node = some w → w.unit ∈ (s.instruction initiationInterval w.cycle).immediates
  unshared : ∀ node node' w w', s.write node = some w → s.write node' = some w' →
    instructionIndex initiationInterval w.cycle = instructionIndex initiationInterval w'.cycle →
    w.unit = w'.unit → node = node'
  max : ∀ node cycle, s.cycle node = some cycle → cycle ≤ s.knownMaxCycle
  min : ∀ node cycle, s.cycle node = some cycle → s.knownMinCycle ≤ cycle
  write : ∀ node w, s.write node = some w → s.knownMinCycle ≤ w.cycle

omit [DecidableEq N] [DecidableEq U] in
theorem inv_empty : Inv initiationInterval (empty : Schedule N U) :=
  ⟨nofun, nofun, nofun, nofun, nofun, nofun⟩

omit [DecidableEq U] in
/-- What an assignment does to the nodes, the instructions and the bounds. -/
theorem assign_spec {t : Schedule N U} {node : N} {cycle : Int} {write : Option (ImmediateWrite U)}
    (h : s.assign initiationInterval guardLatency node cycle write = some t) :
    t.cycle = Function.update s.cycle node (some cycle) ∧ t.write = Function.update s.write node write ∧
      t.instructions = (s.placed initiationInterval node cycle write).instructions ∧
      s.knownMaxCycle ≤ t.knownMaxCycle ∧ cycle ≤ t.knownMaxCycle ∧ t.knownMinCycle ≤ s.knownMinCycle ∧
      t.knownMinCycle ≤ cycle - guardSlack (guardLatency node) ∧ ∀ w, write = some w → t.knownMinCycle ≤ w.cycle := by
  obtain ⟨min, hmin, ht⟩ := Option.bind_eq_some_iff.1 h
  cases ht
  obtain ⟨hknown, hfirst, hwrite⟩ := widenMin_spec hmin
  dsimp only
  refine ⟨rfl, rfl, rfl, ?_, ?_, hknown, hfirst, ?_⟩
  · split <;> omega
  · split <;> omega
  · rintro w rfl
    exact hwrite w.cycle rfl

theorem update_cases {α β : Type} [DecidableEq α] {f : α → Option β} {a b : α} {x : Option β} {y : β}
    (h : Function.update f a x b = some y) : b = a ∧ x = some y ∨ b ≠ a ∧ f b = some y := by
  by_cases heq : b = a
  · subst heq
    rw [Function.update_self] at h
    exact .inl ⟨rfl, h⟩
  · rw [Function.update_of_ne heq] at h
    exact .inr ⟨heq, h⟩

omit [DecidableEq U] in
theorem inv_assign {t : Schedule N U} {node : N} {cycle : Int} {write : Option (ImmediateWrite U)}
    (hs : Inv initiationInterval s)
    (hunit : ∀ w, write = some w → w.unit ∉ (s.instruction initiationInterval w.cycle).immediates)
    (h : s.assign initiationInterval guardLatency node cycle write = some t) : Inv initiationInterval t := by
  obtain ⟨hcycle, hwrite, hins, hmax, hcyclemax, hmin, hfirst, hwritemin⟩ := assign_spec h
  have hslack : 0 ≤ guardSlack (guardLatency node) := Int.le_max_left _ _
  have hinstruction (d : Int) : t.instruction initiationInterval d =
      (s.placed initiationInterval node cycle write).instruction initiationInterval d := congrFun hins _
  constructor
  · intro other c hc
    rw [hinstruction, mem_moves_placed]
    rw [hcycle] at hc
    rcases update_cases hc with ⟨rfl, hnew⟩ | ⟨-, hold⟩
    · exact .inr ⟨congrArg _ (Option.some.inj hnew).symm, rfl⟩
    · exact .inl (hs.moves other c hold)
  · intro other w hw
    rw [hinstruction, mem_immediates_placed]
    rw [hwrite] at hw
    rcases update_cases hw with ⟨rfl, hnew⟩ | ⟨-, hold⟩
    · exact .inr ⟨w, hnew, rfl, rfl⟩
    · exact .inl (hs.immediates other w hold)
  · intro other other' w w' hw hw' hindex heq
    -- the unit of the new immediate is not in its instruction yet
    have hnot {v v' : ImmediateWrite U} {j : N} (hv : write = some v) (hv' : s.write j = some v')
        (hindex : instructionIndex initiationInterval v.cycle = instructionIndex initiationInterval v'.cycle) :
        v.unit ≠ v'.unit := by
      intro heq
      have hmem := hs.immediates j v' hv'
      have hfree := hunit v hv
      unfold instruction at hmem hfree
      rw [hindex, heq] at hfree
      exact hfree hmem
    rw [hwrite] at hw hw'
    rcases update_cases hw with ⟨rfl, hnew⟩ | ⟨-, hold⟩
    · rcases update_cases hw' with ⟨rfl, -⟩ | ⟨-, hold'⟩
      · rfl
      · exact absurd heq (hnot hnew hold' hindex)
    · rcases update_cases hw' with ⟨rfl, hnew'⟩ | ⟨-, hold'⟩
      · exact absurd heq.symm (hnot hnew' hold hindex.symm)
      · exact hs.unshared other other' w w' hold hold' hindex heq
  · intro other c hc
    rw [hcycle] at hc
    rcases update_cases hc with ⟨rfl, hnew⟩ | ⟨-, hold⟩
    · exact Option.some.inj hnew ▸ hcyclemax
    · exact Int.le_trans (hs.max other c hold) hmax
  · intro other c hc
    rw [hcycle] at hc
    rcases update_cases hc with ⟨rfl, hnew⟩ | ⟨-, hold⟩
    · have heq := Option.some.inj hnew
      omega
    · exact Int.le_trans hmin (hs.min other c hold)
  · intro other w hw
    rw [hwrite] at hw
    rcases update_cases hw with ⟨rfl, hnew⟩ | ⟨-, hold⟩
    · exact hwritemin w hnew
    · exact Int.le_trans hmin (hs.write other w hold)

/-- In the instruction of the cycle something is left after the removal of the node. -/
def LeavesUsed (initiationInterval : Nat) (s : Schedule N U) (node : N) (cycle d : Int) : Prop :=
  ((s.removed initiationInterval node cycle).instruction initiationInterval d).isUsed = true

/-- The smallest cycle is that of the guard of the node or of its immediate. -/
def GivesMin (guardLatency : N → Int) (s : Schedule N U) (node : N) (cycle : Int) : Prop :=
  s.knownMinCycle = cycle - guardSlack (guardLatency node) ∨
    ∃ w, s.write node = some w ∧ w.cycle = s.knownMinCycle

/-- What a removal does: the cycles that the bounds pass are empty, and the first one that is not gives the new
smallest cycle with its moves. -/
theorem unassign_spec {t : Schedule N U} {node : N} (h : s.unassign initiationInterval guardLatency node = some t) :
    ∃ cycle, s.cycle node = some cycle ∧ t.cycle = Function.update s.cycle node none ∧
      t.write = Function.update s.write node none ∧
      t.instructions = (s.removed initiationInterval node cycle).instructions ∧
      (∀ d, t.knownMaxCycle < d → d ≤ s.knownMaxCycle → ¬ s.LeavesUsed initiationInterval node cycle d) ∧
      (t.knownMinCycle = s.knownMinCycle ∨
        s.GivesMin guardLatency node cycle ∧
        ∃ first, (∀ d, s.knownMinCycle ≤ d → d < first → ¬ s.LeavesUsed initiationInterval node cycle d) ∧
          t.knownMinCycle ≤ first ∧
          (t.knownMaxCycle < first ∨ s.LeavesUsed initiationInterval node cycle first ∧
            ∀ m ∈ ((s.removed initiationInterval node cycle).instruction initiationInterval first).moves,
              t.knownMinCycle ≤ first - guardSlack (guardLatency m))) := by
  obtain ⟨cycle, hcycle, ht⟩ := Option.bind_eq_some_iff.1 h
  cases ht
  refine ⟨cycle, hcycle, rfl, rfl, rfl, ?_, ?_⟩
  · dsimp only
    intro d hlt hle
    split at hlt
    · next heq =>
      intro hused
      unfold LeavesUsed at hused
      rw [(narrowMax_spec _ _ _).2 d hlt (heq ▸ hle)] at hused
      cases hused
    · exact absurd hle (Int.not_le.2 hlt)
  · dsimp only
    generalize (if cycle = s.knownMaxCycle then narrowMax _ _ cycle else s.knownMaxCycle) = max
    by_cases hnarrow : s.knownMinCycle = cycle - guardSlack (guardLatency node) ∨
        ((s.write node).any fun w => decide (w.cycle = s.knownMinCycle)) = true
    · right
      rw [if_pos hnarrow]
      refine ⟨hnarrow.imp_right fun hany => ?_, ?_⟩
      · obtain ⟨w, hw, heq⟩ := (Option.any_eq_true _ _).1 hany
        exact ⟨w, hw, of_decide_eq_true heq⟩
      · generalize hstop : narrowMin _ _ s.knownMinCycle = first
        obtain ⟨hunused, hused⟩ := hstop ▸ narrowMin_spec
          (fun d => ((s.removed initiationInterval node cycle).instruction initiationInterval d).isUsed)
          (max + 1 - s.knownMinCycle).toNat s.knownMinCycle
        refine ⟨first, fun d hle hlt hleaves => ?_, ?_⟩
        · rw [LeavesUsed, hunused d hle hlt] at hleaves
          cases hleaves
        · by_cases hle : first ≤ max
          · rw [if_pos hle]
            obtain ⟨hfirst, hmoves⟩ := reach_le guardLatency first
              ((s.removed initiationInterval node cycle).instruction initiationInterval first).moves
            exact ⟨hfirst, .inr ⟨hused (by omega), hmoves⟩⟩
          · rw [if_neg hle]
            exact ⟨Int.le_refl _, .inl (Int.not_le.1 hle)⟩
    · exact .inl (if_neg hnarrow)

/-- An instruction with a move of another node, or with its immediate, is left. -/
theorem leavesUsed_cycle (hs : Inv initiationInterval s) {node other : N} {cycle c : Int} (hne : other ≠ node)
    (hc : s.cycle other = some c) : s.LeavesUsed initiationInterval node cycle c := by
  have hmem : other ∈ ((s.removed initiationInterval node cycle).instruction initiationInterval c).moves :=
    (mem_moves_removed hne).2 (hs.moves other c hc)
  unfold LeavesUsed Instruction.isUsed
  rw [Bool.not_eq_true', Bool.and_eq_false_iff]
  exact .inl (List.isEmpty_eq_false_iff_exists_mem.2 ⟨other, hmem⟩)

theorem leavesUsed_write (hs : Inv initiationInterval s) {node other : N} {cycle : Int} {w : ImmediateWrite U}
    (hne : other ≠ node) (hw : s.write other = some w) : s.LeavesUsed initiationInterval node cycle w.cycle := by
  have hmem : w.unit ∈
      ((s.removed initiationInterval node cycle).instruction initiationInterval w.cycle).immediates :=
    (mem_immediates_removed fun w' hw' hindex heq => hne (hs.unshared other node w w' hw hw' hindex heq)).2
      (hs.immediates other w hw)
  unfold LeavesUsed Instruction.isUsed
  rw [Bool.not_eq_true', Bool.and_eq_false_iff]
  exact .inr (List.isEmpty_eq_false_iff_exists_mem.2 ⟨w.unit, hmem⟩)

theorem inv_unassign {t : Schedule N U} {node : N} (hs : Inv initiationInterval s)
    (h : s.unassign initiationInterval guardLatency node = some t) : Inv initiationInterval t := by
  obtain ⟨cycle, hcycle, hcycles, hwrites, hins, hmax, hmin⟩ := unassign_spec h
  have hold {other : N} {c : Int} (hc : t.cycle other = some c) : other ≠ node ∧ s.cycle other = some c := by
    rw [hcycles] at hc
    rcases update_cases hc with ⟨-, hnew⟩ | hold
    · cases hnew
    · exact hold
  have holdw {other : N} {w : ImmediateWrite U} (hw : t.write other = some w) :
      other ≠ node ∧ s.write other = some w := by
    rw [hwrites] at hw
    rcases update_cases hw with ⟨-, hnew⟩ | hold
    · cases hnew
    · exact hold
  -- the smallest cycle stays below what is left
  have hbelow {d : Int} (hused : s.LeavesUsed initiationInterval node cycle d) (hle : s.knownMinCycle ≤ d) :
      t.knownMinCycle ≤ d := by
    rcases hmin with heq | ⟨-, first, hunused, hfirst, -⟩
    · exact heq ▸ hle
    · by_contra hlt
      exact hunused d hle (by omega) hused
  have hinstruction (d : Int) : t.instruction initiationInterval d =
      (s.removed initiationInterval node cycle).instruction initiationInterval d := congrFun hins _
  constructor
  · intro other c hc
    obtain ⟨hne, hc⟩ := hold hc
    rw [hinstruction, mem_moves_removed hne]
    exact hs.moves other c hc
  · intro other w hw
    obtain ⟨hne, hw⟩ := holdw hw
    rw [hinstruction, mem_immediates_removed fun w' hw' hindex heq =>
      hne (hs.unshared other node w w' hw hw' hindex heq)]
    exact hs.immediates other w hw
  · intro other other' w w' hw hw'
    exact hs.unshared other other' w w' (holdw hw).2 (holdw hw').2
  · intro other c hc
    obtain ⟨hne, hc⟩ := hold hc
    by_contra hlt
    exact hmax c (Int.not_le.1 hlt) (hs.max other c hc) (leavesUsed_cycle hs hne hc)
  · intro other c hc
    obtain ⟨hne, hc⟩ := hold hc
    exact hbelow (leavesUsed_cycle hs hne hc) (hs.min other c hc)
  · intro other w hw
    obtain ⟨hne, hw⟩ := holdw hw
    exact hbelow (leavesUsed_write hs hne hw) (hs.write other w hw)

/-- The first instruction that is not empty when the node is removed. -/
structure IsFirst (initiationInterval : Nat) (s : Schedule N U) (node : N) (cycle first : Int) : Prop where
  unused : ∀ d, s.knownMinCycle ≤ d → d < first → ¬ s.LeavesUsed initiationInterval node cycle d
  used : s.LeavesUsed initiationInterval node cycle first

/-- When a node is removed that gives the smallest cycle, then the guards of the nodes that are left reach no
further than those of the moves in the first instruction. -/
def FirstReaches (initiationInterval : Nat) (guardLatency : N → Int) (s : Schedule N U) : Call N U → Prop
  | .assign .. => True
  | .unassign node => ∀ cycle, s.cycle node = some cycle →
    s.GivesMin guardLatency node cycle →
    ∀ first, s.IsFirst initiationInterval node cycle first → ∀ other ≠ node, ∀ c, s.cycle other = some c →
      first ≤ c - guardSlack (guardLatency other) ∨
        ∃ m ∈ ((s.removed initiationInterval node cycle).instruction initiationInterval first).moves,
          first - guardSlack (guardLatency m) ≤ c - guardSlack (guardLatency other)

/-- The bounds are those of everything that is assigned. -/
structure Bounded (guardLatency : N → Int) (s : Schedule N U) : Prop where
  guard : ∀ node cycle, s.cycle node = some cycle → s.smallestCycle ≤ cycle - max 0 (guardLatency node - 1)
  write : ∀ node w, s.cycle node ≠ none → s.write node = some w → s.smallestCycle ≤ w.cycle
  largest : ∀ node cycle, s.cycle node = some cycle → ∀ highestKnownCycle, cycle ≤ s.largestCycle highestKnownCycle

def GuardsReach (guardLatency : N → Int) (s : Schedule N U) : Prop :=
  ∀ node cycle, s.cycle node = some cycle → s.knownMinCycle ≤ cycle - guardSlack (guardLatency node)

omit [DecidableEq U] in
theorem guardsReach_assign {t : Schedule N U} {node : N} {cycle : Int} {write : Option (ImmediateWrite U)}
    (hs : s.GuardsReach guardLatency) (h : s.assign initiationInterval guardLatency node cycle write = some t) :
    t.GuardsReach guardLatency := by
  obtain ⟨hcycle, -, -, -, -, hmin, hfirst, -⟩ := assign_spec h
  intro other c hc
  rw [hcycle] at hc
  rcases update_cases hc with ⟨rfl, hnew⟩ | ⟨-, hold⟩
  · exact Option.some.inj hnew ▸ hfirst
  · exact Int.le_trans hmin (hs other c hold)

theorem guardsReach_unassign {t : Schedule N U} {node : N} (hinv : Inv initiationInterval s)
    (hs : s.GuardsReach guardLatency) (hreaches : s.FirstReaches initiationInterval guardLatency (.unassign node))
    (h : s.unassign initiationInterval guardLatency node = some t) : t.GuardsReach guardLatency := by
  have hinv' := inv_unassign hinv h
  obtain ⟨cycle, hcycle, hcycles, -, -, -, hmin⟩ := unassign_spec h
  intro other c hc
  have hmax := hinv'.max other c hc
  rw [hcycles] at hc
  rcases update_cases hc with ⟨-, hnew⟩ | ⟨hne, hold⟩
  · cases hnew
  · rcases hmin with heq | ⟨hgives, first, hunused, hfirst, hstop⟩
    · exact heq ▸ hs other c hold
    · rcases hstop with hpast | ⟨hused, hmoves⟩
      · -- nothing is left below the largest cycle
        exact absurd (leavesUsed_cycle hinv hne hold) (hunused c (hinv.min other c hold) (by omega))
      · rcases hreaches cycle hcycle hgives first ⟨hunused, hused⟩ other hne c hold with hle | ⟨m, hm, hle⟩
        · exact Int.le_trans hfirst hle
        · exact Int.le_trans (hmoves m hm) hle

/-- Whatever is called, the bounds are those of the cycles and of the immediates. -/
theorem inv_of_reached {meets : Schedule N U → Call N U → Prop}
    (h : Reached initiationInterval guardLatency meets s) : Inv initiationInterval s := by
  induction h with
  | empty => exact inv_empty
  | step _ _ hstep ih =>
    cases hstep with
    | assign _ _ _ _ hunit hassign => exact inv_assign ih hunit hassign
    | unassign hunassign => exact inv_unassign ih hunassign

/-- **The bounds of the schedule** are those of everything that is assigned, in every state that is reached by calls
of which each removal finds the furthest guard in the first instruction. -/
theorem bounded_of_reached
    (h : Reached initiationInterval guardLatency (FirstReaches initiationInterval guardLatency) s) :
    s.Bounded guardLatency := by
  have hinv := inv_of_reached h
  have hguards : s.GuardsReach guardLatency := by
    induction h with
    | empty => nofun
    | step hreached hmeets hstep ih =>
      have hbefore := inv_of_reached hreached
      cases hstep with
      | assign _ _ _ _ _ hassign => exact guardsReach_assign (ih hbefore) hassign
      | unassign hunassign => exact guardsReach_unassign hbefore (ih hbefore) hmeets hunassign
  exact ⟨hguards, fun node w _ hw => hinv.write node w hw,
    fun node cycle hc _ => Int.le_trans (hinv.max node cycle hc) (Int.le_max_left _ _)⟩

/-! ## A guard in a later instruction -/

/-- Only the guard of the second node has to be there before. -/
def guardedNode (node : Fin 3) : Int := if node.val = 1 then 3 else 0

def assignGuarded (s : Schedule (Fin 3) Unit) (node : Fin 3) (cycle : Int) : Schedule (Fin 3) Unit :=
  (s.assign 0 guardedNode node cycle none).getD s

def unassignGuarded (s : Schedule (Fin 3) Unit) (node : Fin 3) : Schedule (Fin 3) Unit :=
  (s.unassign 0 guardedNode node).getD s

theorem bounded_guardedNode :
    (unassignGuarded (assignGuarded (assignGuarded empty 0 3) 1 4) 0).Bounded guardedNode := by
  let first := assignGuarded empty 0 3
  let second := assignGuarded first 1 4
  have hfirst : Step 0 guardedNode empty (.assign 0 3 none) first :=
    .assign (by decide) (by decide) (.inl rfl) rfl nofun rfl
  have hsecond : Step 0 guardedNode first (.assign 1 4 none) second :=
    .assign (by decide) (by decide) (.inl rfl) rfl nofun rfl
  have hremoved : Step 0 guardedNode second (.unassign 0) (unassignGuarded second 0) := .unassign rfl
  have hreaches : FirstReaches 0 guardedNode (empty : Schedule (Fin 3) Unit) (.assign 0 3 none) := trivial
  have hreaches' : FirstReaches 0 guardedNode first (.assign 1 4 none) := trivial
  refine bounded_of_reached (.step (.step (.step .empty hreaches hfirst) hreaches' hsecond) ?_ hremoved)
  rintro cycle hcycle (hgives | ⟨w, hw, -⟩)
  · cases hcycle
    exact absurd hgives (by decide)
  · cases hw

/-- The smallest cycle passes what the guard of a later move needs. -/
theorem not_bounded_guardedNode : ∃ s : Schedule (Fin 3) Unit,
    Reached 0 guardedNode (fun _ _ => True) s ∧ ¬ s.Bounded guardedNode := by
  let first := assignGuarded empty 0 0
  let second := assignGuarded first 1 3
  let third := assignGuarded second 2 2
  have hfirst : Step 0 guardedNode empty (.assign 0 0 none) first :=
    .assign (by decide) (by decide) (.inl rfl) rfl nofun rfl
  have hsecond : Step 0 guardedNode first (.assign 1 3 none) second :=
    .assign (by decide) (by decide) (.inl rfl) rfl nofun rfl
  have hthird : Step 0 guardedNode second (.assign 2 2 none) third :=
    .assign (by decide) (by decide) (.inl rfl) rfl nofun rfl
  have hremoved : Step 0 guardedNode third (.unassign 0) (unassignGuarded third 0) := .unassign rfl
  refine ⟨unassignGuarded third 0,
    .step (.step (.step (.step .empty trivial hfirst) trivial hsecond) trivial hthird) trivial hremoved, fun h => ?_⟩
  have hguard := h.guard 1 3 rfl
  exact absurd hguard (by decide)

end Schedule

end Tce.BrokerDirector
