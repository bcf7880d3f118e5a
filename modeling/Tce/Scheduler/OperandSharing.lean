import Tce.Scheduler.OperandRemoval

/-!
# Execution of a scheduled block

All moves of an instruction read before any of them writes. Operations see the operand
ports and the moves that trigger them, and do not write operand ports.
-/

namespace Tce.PostpassOperandSharer

structure State (P V F : Type) where
  registers : Nat → Nat → V
  operands : P → V
  /-- Everything else: pipelines, results, long immediates, memory. -/
  units : F

/-- The state now, and those before it, the last one first. -/
abbrev History (P V F : Type) := State P V F × List (State P V F)

/-- How the rest of the processor behaves. A guard is tested on all states so far, so that it
may have any latency. -/
structure Processor (P V : Type) where
  F : Type
  output : F → P → V
  longImmediate : F → Nat → Nat → V
  operate : F → (P → V) → List (Move P V) → F
  test : Guard → History P V F → Bool
  test_opposite : ∀ g g' h, g.isOpposite g' = true → test g h = true → test g' h = false

namespace Processor
variable {P V : Type} [DecidableEq P] [DecidableEq V] (target : Target P) (proc : Processor P V)

def read (s : State P V proc.F) : Terminal P V → V
  | .GPR registerFile index => s.registers registerFile index
  | .immediateRegister immediateUnit index => proc.longImmediate s.units immediateUnit index
  | .immediate value => value
  | .FUPort port => proc.output s.units port

def executes (h : History P V proc.F) (move : Move P V) : Bool := move.guard.all fun guard => proc.test guard h

/-- The value that the moves write to a terminal, if one of them does. -/
def written (s : State P V proc.F) (moves : List (Move P V)) (destination : Terminal P V) : Option V :=
  ((moves.filter fun move => move.destination = destination).getLast?).map fun move => proc.read s move.source

def isTrigger (move : Move P V) : Bool :=
  match move.destination with
  | .FUPort port => target.isTriggering port || target.isOpcodeSetting port
  | _ => false

def step (h : History P V proc.F) (ins : Instruction P V) : History P V proc.F :=
  let moves := ins.moves.filter (proc.executes h)
  let operands := fun port => (proc.written h.1 moves (.FUPort port)).getD (h.1.operands port)
  ({ registers := fun registerFile index =>
        (proc.written h.1 moves (.GPR registerFile index)).getD (h.1.registers registerFile index)
     operands := operands
     units := proc.operate h.1.units operands (moves.filter (isTrigger target)) }, h.1 :: h.2)

/-- From the entry on, before the instruction with this index. -/
def before (block : BasicBlock P V) (entry : Nat) (h : History P V proc.F) (index : Nat) : History P V proc.F :=
  ((block.instructions.drop entry).take (index - entry)).foldl (proc.step target) h

theorem before_entry {block : BasicBlock P V} {entry : Nat} {h : History P V proc.F} :
    proc.before target block entry h entry = h := by
  simp [before]

theorem before_succ {block : BasicBlock P V} {entry index : Nat} {h : History P V proc.F} {ins : Instruction P V}
    (hle : entry ≤ index) (hins : block.instructions[index]? = some ins) :
    proc.before target block entry h (index + 1) = proc.step target (proc.before target block entry h index) ins := by
  obtain ⟨n, rfl⟩ := Nat.exists_eq_add_of_le hle
  have hdrop : (block.instructions.drop entry)[n]? = some ins := by rw [List.getElem?_drop, hins]
  have htake : (block.instructions.drop entry).take (n + 1) = (block.instructions.drop entry).take n ++ [ins] := by
    rw [List.take_add_one, hdrop]
    rfl
  unfold before
  rw [show entry + n + 1 - entry = n + 1 by omega, show entry + n - entry = n by omega, htake, List.foldl_append]
  rfl

theorem before_of_none {block : BasicBlock P V} {entry index : Nat} {h : History P V proc.F}
    (hnone : block.instructions[index]? = none) :
    proc.before target block entry h (index + 1) = proc.before target block entry h index := by
  have hlength := List.getElem?_eq_none_iff.mp hnone
  have hdrop : (block.instructions.drop entry).length ≤ index - entry := by
    rw [List.length_drop]
    exact Nat.sub_le_sub_right hlength entry
  unfold before
  rw [List.take_of_length_le hdrop, List.take_of_length_le (by omega)]

end Processor

end Tce.PostpassOperandSharer

/-!
## Writing an operand again

What a port has since a write on no condition, and that a step is the same without the
moves that write what their ports have.
-/

namespace Tce.PostpassOperandSharer
variable {P V : Type} [DecidableEq P] [DecidableEq V] {target : Target P}

theorem eq_singleton_of_pairwise_false {α : Type} {l : List α} {a : α} (h : l.Pairwise fun _ _ => False)
    (ha : a ∈ l) : l = [a] := by
  cases l with
  | nil => simp at ha
  | cons b l =>
    have hnil : l = [] := List.eq_nil_iff_forall_not_mem.mpr (List.pairwise_cons.mp h).1
    subst hnil
    rw [List.mem_singleton.mp ha]

namespace Processor
variable {proc : Processor P V} {h : History P V proc.F} {ins : Instruction P V} {move : Move P V} {port : P}

omit [DecidableEq P] [DecidableEq V] in
theorem not_executes_of_opposite {move' : Move P V} (hopp : move.hasOppositeGuard move' = true)
    (he : proc.executes h move = true) : proc.executes h move' = false := by
  unfold Move.hasOppositeGuard at hopp
  unfold executes at he ⊢
  cases hg : move.guard with
  | none => simp [hg] at hopp
  | some g =>
    cases hg' : move'.guard with
    | none => simp [hg, hg'] at hopp
    | some g' =>
      rw [hg, hg'] at hopp
      rw [hg, Option.all_some] at he
      exact proc.test_opposite g g' h hopp he

/-- Of the moves that write a port at most one is executed. -/
theorem executed_pairwise {moves : List (Move P V)} (hex : PortsExclusive moves) :
    ((moves.filter (proc.executes h)).filter fun m => m.destination = .FUPort port).Pairwise fun _ _ => False := by
  have hsub : PortsExclusive ((moves.filter (proc.executes h)).filter fun m => m.destination = .FUPort port) :=
    hex.sublist (List.filter_sublist.trans List.filter_sublist)
  apply hsub.imp_of_mem
  intro m m' hm hm' hopp
  obtain ⟨hm, hdst⟩ := List.mem_filter.mp hm
  obtain ⟨hm', hdst'⟩ := List.mem_filter.mp hm'
  have hfalse := not_executes_of_opposite (hopp port (of_decide_eq_true hdst) (of_decide_eq_true hdst'))
    (List.mem_filter.mp hm).2
  rw [(List.mem_filter.mp hm').2] at hfalse
  cases hfalse

theorem written_of_executes {moves : List (Move P V)} (hex : PortsExclusive moves) (hm : move ∈ moves)
    (hdst : move.destination = .FUPort port) (he : proc.executes h move = true) :
    proc.written h.1 (moves.filter (proc.executes h)) (.FUPort port) = some (proc.read h.1 move.source) := by
  have hmem : move ∈ (moves.filter (proc.executes h)).filter fun m => m.destination = .FUPort port :=
    List.mem_filter.mpr ⟨List.mem_filter.mpr ⟨hm, he⟩, decide_eq_true hdst⟩
  rw [written, eq_singleton_of_pairwise_false (executed_pairwise hex) hmem]
  rfl

theorem written_eq_none {moves : List (Move P V)}
    (hno : ∀ m ∈ moves, m.destination = .FUPort port → proc.executes h m = false) :
    proc.written h.1 (moves.filter (proc.executes h)) (.FUPort port) = none := by
  rw [written, Option.map_eq_none_iff, List.getLast?_eq_none_iff, List.filter_eq_nil_iff]
  intro m hm hdst
  obtain ⟨hm, he⟩ := List.mem_filter.mp hm
  rw [hno m hm (of_decide_eq_true hdst)] at he
  cases he

theorem operands_of_executes (hex : PortsExclusive ins.moves) (hm : move ∈ ins.moves)
    (hdst : move.destination = .FUPort port) (he : proc.executes h move = true) :
    (proc.step target h ins).1.operands port = proc.read h.1 move.source := by
  simp only [step]
  rw [written_of_executes hex hm hdst he, Option.getD_some]

theorem operands_of_not_executes (hno : ∀ m ∈ ins.moves, m.destination = .FUPort port → proc.executes h m = false) :
    (proc.step target h ins).1.operands port = h.1.operands port := by
  simp only [step]
  rw [written_eq_none hno, Option.getD_none]

theorem read_step (hsrc : move.source.IsOperandSource) (hkeeps : KeepsSource ins.moves move) :
    proc.read (proc.step target h ins).1 move.source = proc.read h.1 move.source := by
  cases hs : move.source with
  | GPR registerFile index =>
    have hnone : proc.written h.1 (ins.moves.filter (proc.executes h)) (.GPR registerFile index) = none := by
      rw [written, Option.map_eq_none_iff, List.getLast?_eq_none_iff, List.filter_eq_nil_iff]
      intro m hm hdst
      exact hkeeps m (List.mem_filter.mp hm).1 registerFile index (of_decide_eq_true hdst) hs
    simp only [read, step, hnone, Option.getD_none]
  | immediate value => rfl
  | immediateRegister _ _ => rw [hs] at hsrc; cases hsrc
  | FUPort _ => rw [hs] at hsrc; cases hsrc

/-- From a write on no condition on, the port has what the move would write. -/
theorem operands_of_writtenBefore {block : BasicBlock P V} {entry i j k : Nat} (hsched : block.Scheduled)
    (hi : i ≤ block.instructions.length) (hsrc : move.source.IsOperandSource)
    (hbefore : WrittenBefore block i move port k) (hentry : entry ≤ k) (hk : k < j) (hj : j ≤ i) :
    (proc.before target block entry h j).1.operands port =
      proc.read (proc.before target block entry h j).1 move.source := by
  induction j, hk using Nat.le_induction with
  | base =>
    obtain ⟨ins, hins, m, hm, hdst, hsource, hg⟩ := hbefore.writes
    have he : proc.executes (proc.before target block entry h k) m = true := by simp [executes, hg]
    rw [before_succ target proc hentry hins, operands_of_executes (hsched ins (List.mem_of_getElem? hins)) hm hdst he,
      read_step hsrc (hbefore.keeps k ins (Nat.le_refl k) hbefore.lt hins), hsource]
  | succ j hlt ih =>
    have ih := ih (Nat.le_of_succ_le hj)
    have hins : block.instructions[j]? = some block.instructions[j] := List.getElem?_eq_getElem (by omega)
    generalize block.instructions[j] = ins at hins
    rw [before_succ target proc (by omega) hins, read_step hsrc (hbefore.keeps j ins (by omega) (by omega) hins)]
    by_cases hsome : ∃ m ∈ ins.moves, m.destination = .FUPort port ∧
        proc.executes (proc.before target block entry h j) m = true
    · obtain ⟨m, hm, hdst, he⟩ := hsome
      rw [operands_of_executes (hsched ins (List.mem_of_getElem? hins)) hm hdst he]
      rw [((hbefore.between j ins hlt (by omega) hins).1 m hm hdst).1]
    · have hno : ∀ m ∈ ins.moves, m.destination = .FUPort port →
          proc.executes (proc.before target block entry h j) m = false := by
        intro m hm hdst
        by_contra he
        exact hsome ⟨m, hm, hdst, Bool.eq_true_of_not_eq_false he⟩
      rw [operands_of_not_executes hno, ih]

/-- A move that may be taken out: it writes an operand port, with what the port has already. -/
def Redundant (target : Target P) (h : History P V proc.F) (move : Move P V) : Prop :=
  isTrigger target move = false ∧ ∃ port, move.destination = .FUPort port ∧
    (proc.executes h move = true → h.1.operands port = proc.read h.1 move.source)

/-- What the kept moves write to a place that no move taken out writes. -/
theorem written_filter {moves : List (Move P V)} {keep : Move P V → Bool} {destination : Terminal P V}
    (hkeep : ∀ m ∈ moves, proc.executes h m = true → m.destination = destination → keep m = true) :
    proc.written h.1 ((moves.filter keep).filter (proc.executes h)) destination =
      proc.written h.1 (moves.filter (proc.executes h)) destination := by
  have hsame : ((moves.filter keep).filter (proc.executes h)).filter (fun m => m.destination = destination) =
      (moves.filter (proc.executes h)).filter fun m => m.destination = destination := by
    simp only [List.filter_filter]
    apply List.filter_congr
    intro m hm
    by_cases hboth : proc.executes h m = true ∧ m.destination = destination
    · simp [hkeep m hm hboth.1 hboth.2]
    · by_cases he : proc.executes h m = true
      · simp [show m.destination ≠ destination from fun hdst => hboth ⟨he, hdst⟩]
      · simp [he]
  rw [written, written, hsame]

theorem operands_filter {keep : Move P V → Bool} (hex : PortsExclusive ins.moves)
    (hred : ∀ m ∈ ins.moves, keep m = false → proc.Redundant target h m) :
    (proc.written h.1 ((ins.moves.filter keep).filter (proc.executes h)) (.FUPort port)).getD (h.1.operands port) =
      (proc.written h.1 (ins.moves.filter (proc.executes h)) (.FUPort port)).getD (h.1.operands port) := by
  by_cases hout : ∃ m ∈ ins.moves, proc.executes h m = true ∧ m.destination = .FUPort port ∧ keep m = false
  · obtain ⟨m, hm, he, hdst, hkeep⟩ := hout
    obtain ⟨-, port', hdst', hvalue⟩ := hred m hm hkeep
    obtain rfl : port = port' := by
      rw [hdst] at hdst'
      cases hdst'
      rfl
    have hnone : proc.written h.1 ((ins.moves.filter keep).filter (proc.executes h)) (.FUPort port) = none := by
      apply written_eq_none
      intro m' hm' hdst''
      obtain ⟨hm', hkeep'⟩ := List.mem_filter.mp hm'
      by_contra he'
      have hmem : m' ∈ (ins.moves.filter (proc.executes h)).filter fun m => m.destination = .FUPort port :=
        List.mem_filter.mpr ⟨List.mem_filter.mpr ⟨hm', Bool.eq_true_of_not_eq_false he'⟩, decide_eq_true hdst''⟩
      have hmem' : m ∈ (ins.moves.filter (proc.executes h)).filter fun m => m.destination = .FUPort port :=
        List.mem_filter.mpr ⟨List.mem_filter.mpr ⟨hm, he⟩, decide_eq_true hdst⟩
      rw [eq_singleton_of_pairwise_false (executed_pairwise hex) hmem', List.mem_singleton] at hmem
      rw [hmem, hkeep] at hkeep'
      cases hkeep'
    rw [hnone, written_of_executes hex hm hdst he, Option.getD_none, Option.getD_some]
    exact hvalue he
  · rw [written_filter]
    intro m hm he hdst
    by_contra hkeep
    exact hout ⟨m, hm, he, hdst, Bool.eq_false_of_not_eq_true hkeep⟩

/-- Taking out moves that are redundant leaves an instruction with the same effect. -/
theorem step_filter {keep : Move P V → Bool} (hex : PortsExclusive ins.moves)
    (hred : ∀ m ∈ ins.moves, keep m = false → proc.Redundant target h m) :
    proc.step target h { ins with moves := ins.moves.filter keep } = proc.step target h ins := by
  have hregisters : ∀ registerFile index,
      proc.written h.1 ((ins.moves.filter keep).filter (proc.executes h)) (.GPR registerFile index) =
        proc.written h.1 (ins.moves.filter (proc.executes h)) (.GPR registerFile index) := by
    intro registerFile index
    apply written_filter
    intro m hm _ hdst
    by_contra hkeep
    obtain ⟨-, port, hdst', -⟩ := hred m hm (Bool.eq_false_of_not_eq_true hkeep)
    rw [hdst] at hdst'
    cases hdst'
  have htriggers : ((ins.moves.filter keep).filter (proc.executes h)).filter (isTrigger target) =
      (ins.moves.filter (proc.executes h)).filter (isTrigger target) := by
    simp only [List.filter_filter]
    apply List.filter_congr
    intro m hm
    cases hkeep : keep m with
    | true => simp
    | false => simp [(hred m hm hkeep).1]
  simp only [step, hregisters, htriggers, operands_filter hex hred]

end Processor

end Tce.PostpassOperandSharer
