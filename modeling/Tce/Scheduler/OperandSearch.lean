import Tce.Scheduler.PostpassOperandSharer

/-!
# Which operand writes are removed

The search finds an earlier write that is not conditional, if what lies between keeps the
source and the port; the pass then filters every instruction by what the search says.
-/

namespace Tce.PostpassOperandSharer
variable {P V : Type} {target : Target P}

/-- The source of a move that the pass looks at. -/
inductive Terminal.IsOperandSource : Terminal P V → Prop
  | GPR (registerFile index : Nat) : IsOperandSource (.GPR registerFile index)
  | immediate (value : V) : IsOperandSource (.immediate value)

/-- No move of the list writes the register that this move reads. -/
def KeepsSource (moves : List (Move P V)) (move : Move P V) : Prop :=
  ∀ prevMove ∈ moves, ∀ registerFile index,
    prevMove.destination = .GPR registerFile index → move.source ≠ .GPR registerFile index

/-- What the list writes to the port is what the move writes, each time on a condition. -/
def OnlyConditional (moves : List (Move P V)) (move : Move P V) (port : P) : Prop :=
  ∀ prevMove ∈ moves, prevMove.destination = .FUPort port → prevMove.source = move.source ∧ prevMove.guard ≠ none

/-- A move of the list writes to the port on no condition what the move writes. -/
def WritesAlways (moves : List (Move P V)) (move : Move P V) (port : P) : Prop :=
  ∃ prevMove ∈ moves, prevMove.destination = .FUPort port ∧ prevMove.source = move.source ∧ prevMove.guard = none

/-- Moves of one instruction that write the same port exclude each other. -/
def PortsExclusive (moves : List (Move P V)) : Prop :=
  moves.Pairwise fun move move' => ∀ port, move.destination = .FUPort port → move'.destination = .FUPort port →
    move.hasOppositeGuard move' = true

def BasicBlock.Scheduled (block : BasicBlock P V) : Prop :=
  ∀ ins ∈ block.instructions, PortsExclusive ins.moves

/-- The instruction `k` has written the port before, and since then its value and the source
have not changed on any path. -/
structure WrittenBefore (block : BasicBlock P V) (insIndex : Nat) (move : Move P V) (port : P) (k : Nat) : Prop where
  skipped_le : block.skippedFirstInstructions ≤ k
  lt : k < insIndex
  writes : ∃ ins, block.instructions[k]? = some ins ∧ WritesAlways ins.moves move port
  keeps : ∀ j ins, k ≤ j → j < insIndex → block.instructions[j]? = some ins → KeepsSource ins.moves move
  between : ∀ j ins, k < j → j < insIndex → block.instructions[j]? = some ins →
    OnlyConditional ins.moves move port ∧ ins.hasReference = false

/-- The move writes an operand port again with what the port has. -/
structure Repeats (target : Target P) (block : BasicBlock P V) (insIndex : Nat) (move : Move P V) (port : P) : Prop where
  destination : move.destination = .FUPort port
  source : move.source.IsOperandSource
  not_triggering : target.isTriggering port = false
  not_opcodeSetting : target.isOpcodeSetting port = false
  before : ∃ k, WrittenBefore block insIndex move port k

namespace WrittenBefore
variable {block : BasicBlock P V} {move : Move P V} {port : P} {i k : Nat} {ins : Instruction P V}

theorem last (hins : block.instructions[i]? = some ins) (hskip : block.skippedFirstInstructions ≤ i)
    (hkeeps : KeepsSource ins.moves move) (hwrites : WritesAlways ins.moves move port) :
    WrittenBefore block (i + 1) move port i where
  skipped_le := hskip
  lt := Nat.lt_succ_self i
  writes := ⟨ins, hins, hwrites⟩
  keeps := by
    intro j ins' hle hlt hins'
    obtain rfl : i = j := by omega
    rw [hins] at hins'
    cases hins'
    exact hkeeps
  between := by
    intro j ins' hlt hlt'
    omega

theorem succ (h : WrittenBefore block i move port k) (hins : block.instructions[i]? = some ins)
    (hkeeps : KeepsSource ins.moves move) (hcond : OnlyConditional ins.moves move port)
    (hreference : ins.hasReference = false) : WrittenBefore block (i + 1) move port k where
  skipped_le := h.skipped_le
  lt := Nat.lt_succ_of_lt h.lt
  writes := h.writes
  keeps := by
    intro j ins' hle hlt hins'
    rcases Nat.lt_succ_iff_lt_or_eq.mp hlt with hj | rfl
    · exact h.keeps j ins' hle hj hins'
    · rw [hins] at hins'
      cases hins'
      exact hkeeps
  between := by
    intro j ins' hlt hlt' hins'
    rcases Nat.lt_succ_iff_lt_or_eq.mp hlt' with hj | rfl
    · exact h.between j ins' hlt hj hins'
    · rw [hins] at hins'
      cases hins'
      exact ⟨hcond, hreference⟩

/-- The write is in the last instruction, or the last instruction is one of those between. -/
theorem succ_cases (h : WrittenBefore block (i + 1) move port k) (hins : block.instructions[i]? = some ins) :
    (k = i ∧ WritesAlways ins.moves move port) ∨
      (WrittenBefore block i move port k ∧ OnlyConditional ins.moves move port ∧ ins.hasReference = false) := by
  rcases Nat.lt_succ_iff_lt_or_eq.mp h.lt with hlt | rfl
  · right
    exact ⟨{ skipped_le := h.skipped_le
             lt := hlt
             writes := h.writes
             keeps := fun j ins' hle hj => h.keeps j ins' hle (Nat.lt_succ_of_lt hj)
             between := fun j ins' hlt' hj => h.between j ins' hlt' (Nat.lt_succ_of_lt hj) },
      h.between i ins hlt (Nat.lt_succ_self i) hins⟩
  · left
    obtain ⟨ins', hins', hwrites⟩ := h.writes
    rw [hins] at hins'
    cases hins'
    exact ⟨rfl, hwrites⟩

end WrittenBefore

variable [DecidableEq P] [DecidableEq V]

theorem overwritesSource_eq_false {moves : List (Move P V)} {move : Move P V} :
    overwritesSource moves move false = false ↔ KeepsSource moves move := by
  unfold overwritesSource KeepsSource
  rw [List.any_eq_false]
  constructor
  · intro h prevMove hprev registerFile index hdst hsrc
    have := h prevMove hprev
    simp [hdst, hsrc] at this
  · intro h prevMove hprev
    cases hdst : prevMove.destination with
    | GPR registerFile index => simp [h prevMove hprev registerFile index hdst]
    | immediateRegister _ _ => simp
    | immediate _ => simp
    | FUPort _ => simp

section Writes
variable {move : Move P V} {port : P}

theorem writesOperand_eq_none {moves : List (Move P V)} :
    writesOperand target move port false moves = none ↔ OnlyConditional moves move port := by
  unfold OnlyConditional
  induction moves with
  | nil => simp [writesOperand]
  | cons prevMove moves ih =>
    rw [List.forall_mem_cons, ← ih, writesOperand]
    by_cases hdst : prevMove.destination = .FUPort port
    · by_cases hsrc : move.source = prevMove.source
      · cases hg : prevMove.guard with
        | none => simp [hdst, hsrc, Move.isUnconditional, hg]
        | some g => simp [hdst, hsrc, Move.isUnconditional, hg]
      · simp [hdst, hsrc, Ne.symm hsrc]
    · simp [hdst]

theorem writesAlways_of_writesOperand {moves : List (Move P V)}
    (h : writesOperand target move port false moves = some true) :
    WritesAlways moves move port ∧ target.isTriggering port = false ∧ target.isOpcodeSetting port = false := by
  unfold WritesAlways
  induction moves with
  | nil => simp [writesOperand] at h
  | cons prevMove moves ih =>
    rw [writesOperand] at h
    by_cases hdst : prevMove.destination = .FUPort port
    · by_cases hsrc : move.source = prevMove.source
      · cases hg : prevMove.guard with
        | none =>
          have htarget : target.isTriggering port = false ∧ target.isOpcodeSetting port = false := by
            simpa [hdst, hsrc, Move.isUnconditional, hg] using h
          exact ⟨⟨prevMove, List.mem_cons_self, hdst, hsrc.symm, hg⟩, htarget⟩
        | some g =>
          have hrest := ih (by simpa [hdst, hsrc, Move.isUnconditional, hg] using h)
          obtain ⟨⟨p, hp, hrest⟩, htarget⟩ := hrest
          exact ⟨⟨p, List.mem_cons_of_mem _ hp, hrest⟩, htarget⟩
      · simp [hdst, hsrc] at h
    · obtain ⟨⟨p, hp, hrest⟩, htarget⟩ := ih (by simpa [hdst] using h)
      exact ⟨⟨p, List.mem_cons_of_mem _ hp, hrest⟩, htarget⟩

/-- A move with no condition is the only one that writes its port. -/
theorem writesOperand_of_writesAlways {moves : List (Move P V)} (hex : PortsExclusive moves)
    (h : WritesAlways moves move port) (htrigger : target.isTriggering port = false)
    (hopcode : target.isOpcodeSetting port = false) :
    writesOperand target move port false moves = some true := by
  obtain ⟨p, hp, hdst, hsrc, hg⟩ := h
  induction moves with
  | nil => simp at hp
  | cons prevMove moves ih =>
    obtain ⟨hhead, htail⟩ := List.pairwise_cons.mp hex
    rw [writesOperand]
    by_cases hprev : prevMove.destination = .FUPort port
    · rcases List.mem_cons.mp hp with heq | hmem
      · subst heq
        simp [hdst, hsrc, Move.isUnconditional, hg, htrigger, hopcode]
      · have hopp := hhead p hmem port hprev hdst
        simp [Move.hasOppositeGuard, hg] at hopp
    · rcases List.mem_cons.mp hp with heq | hmem
      · exact absurd (heq ▸ hdst) hprev
      · simpa [hprev] using ih htail hmem

end Writes

/-- The guard latency does not matter, as `guardOK` is false. -/
theorem search_succ {block : BasicBlock P V} {move : Move P V} {port : P} {glat i : Nat} {ins : Instruction P V}
    (hins : block.instructions[i]? = some ins) :
    search target block move port glat (i + 1) false =
      (!decide (i < block.skippedFirstInstructions) && !overwritesSource ins.moves move false &&
        (writesOperand target move port false ins.moves).getD
          (!ins.hasReference && search target block move port glat i false)) := by
  rw [search]
  simp only [hins, Bool.false_and]
  by_cases hskip : i < block.skippedFirstInstructions
  · simp [hskip]
  · cases hover : overwritesSource ins.moves move false with
    | true => simp [hskip]
    | false =>
      cases hwrite : writesOperand target move port false ins.moves with
      | some remove => simp [hskip]
      | none => cases hreference : ins.hasReference <;> simp [hskip]

section Search
variable {block : BasicBlock P V} {move : Move P V} {port : P} {glat i : Nat} {ins : Instruction P V}

/-- The search finds a write exactly where one keeps the port as it is. -/
theorem search_iff (hsched : block.Scheduled) (hi : i ≤ block.instructions.length) :
    search target block move port glat i false = true ↔
      (target.isTriggering port = false ∧ target.isOpcodeSetting port = false) ∧
        ∃ k, WrittenBefore block i move port k := by
  induction i with
  | zero =>
    simp only [search, Bool.false_eq_true, false_iff]
    rintro ⟨-, k, h⟩
    exact absurd h.lt (Nat.not_lt_zero k)
  | succ i ih =>
    have hins : block.instructions[i]? = some block.instructions[i] := List.getElem?_eq_getElem hi
    generalize block.instructions[i] = ins at hins
    have hex := hsched ins (List.mem_of_getElem? hins)
    rw [search_succ hins]
    simp only [Bool.and_eq_true, Bool.not_eq_true', decide_eq_false_iff_not, Nat.not_lt, overwritesSource_eq_false]
    constructor
    · rintro ⟨⟨hskip, hkeeps⟩, hwrite⟩
      cases hw : writesOperand target move port false ins.moves with
      | some remove =>
        rw [hw, Option.getD_some] at hwrite
        obtain ⟨hwrites, htarget⟩ := writesAlways_of_writesOperand (hwrite ▸ hw)
        exact ⟨htarget, i, .last hins hskip hkeeps hwrites⟩
      | none =>
        rw [hw, Option.getD_none, Bool.and_eq_true, Bool.not_eq_true', ih (Nat.le_of_succ_le hi)] at hwrite
        obtain ⟨hreference, htarget, k, hk⟩ := hwrite
        exact ⟨htarget, k, hk.succ hins hkeeps (writesOperand_eq_none.mp hw) hreference⟩
    · rintro ⟨htarget, k, hk⟩
      have hkeeps := hk.keeps i ins (Nat.le_of_lt_succ hk.lt) (Nat.lt_succ_self i) hins
      have hskip : block.skippedFirstInstructions ≤ i := hk.skipped_le.trans (Nat.le_of_lt_succ hk.lt)
      refine ⟨⟨hskip, hkeeps⟩, ?_⟩
      rcases hk.succ_cases hins with ⟨-, hwrites⟩ | ⟨hbefore, hcond, hreference⟩
      · rw [writesOperand_of_writesAlways hex hwrites htarget.1 htarget.2, Option.getD_some]
      · rw [writesOperand_eq_none.mpr hcond, Option.getD_none, Bool.and_eq_true, Bool.not_eq_true',
          ih (Nat.le_of_succ_le hi)]
        exact ⟨hreference, htarget, k, hbefore⟩

end Search

end Tce.PostpassOperandSharer
