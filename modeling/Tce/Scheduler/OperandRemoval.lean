import Tce.Scheduler.OperandSearch

/-!
# What the pass leaves of a block

A move is tried on the instructions before its own, and those are handled after it; so the
whole pass filters the moves of the block as it was before.
-/

namespace Tce.PostpassOperandSharer
variable {P V : Type} [DecidableEq P] [DecidableEq V] {target : Target P}

/-- The guard of an operand write is one that the pass does not support. -/
def Move.Throws (move : Move P V) (target : Target P) : Prop :=
  (∃ port, move.destination = .FUPort port) ∧ move.source.IsOperandSource ∧ move.guardLatency target = none

section Try
variable {block block' : BasicBlock P V} {move : Move P V} {port : P} {glat insIndex : Nat}

theorem tryRemove_of_source (hdst : move.destination = .FUPort port) (hsrc : move.source.IsOperandSource) :
    tryRemoveOperandWrite target block insIndex move =
      (move.guardLatency target).map fun glat => search target block move port glat insIndex false := by
  obtain ⟨source, destination, guard⟩ := move
  subst hdst
  cases hsrc with
  | GPR registerFile index => cases h : Move.guardLatency target _ <;> simp [tryRemoveOperandWrite, h]
  | immediate value => cases h : Move.guardLatency target _ <;> simp [tryRemoveOperandWrite, h]

theorem tryRemove_eq_some_false (h : ¬((∃ port, move.destination = .FUPort port) ∧ move.source.IsOperandSource)) :
    tryRemoveOperandWrite target block insIndex move = some false := by
  obtain ⟨source, destination, guard⟩ := move
  cases destination with
  | FUPort port =>
    cases source with
    | GPR registerFile index => exact absurd ⟨⟨port, rfl⟩, .GPR registerFile index⟩ h
    | immediate value => exact absurd ⟨⟨port, rfl⟩, .immediate value⟩ h
    | immediateRegister _ _ => rfl
    | FUPort _ => rfl
  | GPR _ _ => rfl
  | immediate _ => rfl
  | immediateRegister _ _ => rfl

theorem tryRemove_eq_none : tryRemoveOperandWrite target block insIndex move = none ↔ move.Throws target := by
  by_cases h : (∃ port, move.destination = .FUPort port) ∧ move.source.IsOperandSource
  · obtain ⟨⟨port, hdst⟩, hsrc⟩ := h
    rw [tryRemove_of_source hdst hsrc, Option.map_eq_none_iff]
    exact ⟨fun hlat => ⟨⟨port, hdst⟩, hsrc, hlat⟩, fun hthrows => hthrows.2.2⟩
  · rw [tryRemove_eq_some_false h]
    constructor
    · intro hfalse
      cases hfalse
    · intro hthrows
      exact absurd ⟨hthrows.1, hthrows.2.1⟩ h

theorem not_throws_of_tryRemove {remove : Bool} (h : tryRemoveOperandWrite target block insIndex move = some remove) :
    ¬move.Throws target := by
  intro hthrows
  rw [tryRemove_eq_none.mpr hthrows] at h
  cases h

theorem tryRemove_eq_some_true (hsched : block.Scheduled) (hi : insIndex ≤ block.instructions.length) :
    tryRemoveOperandWrite target block insIndex move = some true ↔
      ¬move.Throws target ∧ ∃ port, Repeats target block insIndex move port := by
  constructor
  · intro htry
    have hnot := not_throws_of_tryRemove htry
    by_cases h : (∃ port, move.destination = .FUPort port) ∧ move.source.IsOperandSource
    · obtain ⟨⟨port, hdst⟩, hsrc⟩ := h
      rw [tryRemove_of_source hdst hsrc, Option.map_eq_some_iff] at htry
      obtain ⟨glat, -, hsearch⟩ := htry
      obtain ⟨⟨htrigger, hopcode⟩, hbefore⟩ := (search_iff hsched hi).mp hsearch
      exact ⟨hnot, port, hdst, hsrc, htrigger, hopcode, hbefore⟩
    · rw [tryRemove_eq_some_false h] at htry
      cases htry
  · rintro ⟨hnot, port, hrep⟩
    rw [tryRemove_of_source hrep.destination hrep.source]
    cases hlat : move.guardLatency target with
    | none => exact absurd ⟨⟨port, hrep.destination⟩, hrep.source, hlat⟩ hnot
    | some glat =>
      rw [Option.map_some, (search_iff hsched hi).mpr ⟨⟨hrep.not_triggering, hrep.not_opcodeSetting⟩, hrep.before⟩]

theorem search_congr (hskip : block.skippedFirstInstructions = block'.skippedFirstInstructions)
    (hins : ∀ j < insIndex, block.instructions[j]? = block'.instructions[j]?) :
    search target block move port glat insIndex false = search target block' move port glat insIndex false := by
  induction insIndex with
  | zero => rfl
  | succ i ih =>
    have hi := hins i (Nat.lt_succ_self i)
    cases h : block.instructions[i]? with
    | none => simp [search, h, ← hi]
    | some ins =>
      rw [search_succ h, search_succ (hi ▸ h), hskip, ih fun j hj => hins j (Nat.lt_succ_of_lt hj)]

/-- Only the instructions before its own count for a move. -/
theorem tryRemove_congr (hskip : block.skippedFirstInstructions = block'.skippedFirstInstructions)
    (hins : ∀ j < insIndex, block.instructions[j]? = block'.instructions[j]?) :
    tryRemoveOperandWrite target block insIndex move = tryRemoveOperandWrite target block' insIndex move := by
  by_cases h : (∃ port, move.destination = .FUPort port) ∧ move.source.IsOperandSource
  · obtain ⟨⟨port, hdst⟩, hsrc⟩ := h
    rw [tryRemove_of_source hdst hsrc, tryRemove_of_source hdst hsrc]
    cases move.guardLatency target with
    | none => rfl
    | some glat => rw [Option.map_some, Option.map_some, search_congr hskip hins]
  · rw [tryRemove_eq_some_false h, tryRemove_eq_some_false h]

end Try

section Handle
variable (target) (block : BasicBlock P V)

def keepMoves (index : Nat) (ins : Instruction P V) : Instruction P V :=
  { ins with moves := ins.moves.filter fun move => tryRemoveOperandWrite target block index move ≠ some true }

/-- The block with the instructions before this index handled. -/
def sharedFrom (index : Nat) : BasicBlock P V :=
  { block with
    instructions := block.instructions.mapIdx fun j ins => if j < index then keepMoves target block j ins else ins }

/-- No move before this index has a guard that is not supported. -/
def Supported (index : Nat) : Prop :=
  ∀ j < index, ∀ ins, block.instructions[j]? = some ins → ∀ move ∈ ins.moves, ¬move.Throws target

variable {target block}

omit [DecidableEq P] [DecidableEq V] in
theorem getElem?_setMoves {index j : Nat} {moves : List (Move P V)} :
    (block.setMoves index moves).instructions[j]? =
      block.instructions[j]?.map fun ins => if index = j then { ins with moves := moves } else ins := by
  rw [BasicBlock.setMoves, List.getElem?_modify]
  cases block.instructions[j]? with
  | none => rfl
  | some ins => by_cases h : index = j <;> simp [h]

omit [DecidableEq P] [DecidableEq V] in
theorem getElem?_setMoves_ne {index j : Nat} {moves : List (Move P V)} (hne : index ≠ j) :
    (block.setMoves index moves).instructions[j]? = block.instructions[j]? := by
  simp [getElem?_setMoves, hne]

theorem setMoves_tryRemove {insIndex index : Nat} {moves : List (Move P V)} {move : Move P V} (hle : index ≤ insIndex) :
    tryRemoveOperandWrite target (block.setMoves insIndex moves) index move =
      tryRemoveOperandWrite target block index move := by
  have hskip : (block.setMoves insIndex moves).skippedFirstInstructions = block.skippedFirstInstructions := rfl
  apply tryRemove_congr hskip
  intro j hj
  have hne : insIndex ≠ j := by omega
  exact getElem?_setMoves_ne hne

theorem shareMoves_eq_some {insIndex : Nat} {kept moves result : List (Move P V)} :
    shareMoves target block insIndex kept moves = some result ↔
      (∀ move ∈ moves, ¬move.Throws target) ∧
        result = kept ++ moves.filter fun move => tryRemoveOperandWrite target block insIndex move ≠ some true := by
  induction moves generalizing kept with
  | nil => simp [shareMoves, eq_comm]
  | cons move moves ih =>
    rw [shareMoves, setMoves_tryRemove (Nat.le_refl insIndex), List.forall_mem_cons]
    cases h : tryRemoveOperandWrite target block insIndex move with
    | none => simp [tryRemove_eq_none.mp h]
    | some remove =>
      have hnot := not_throws_of_tryRemove h
      cases remove with
      | true => simp [ih, hnot, h]
      | false => simp [ih, hnot, h]

theorem keepMoves_setMoves {insIndex index : Nat} {moves : List (Move P V)} {ins : Instruction P V}
    (hle : index ≤ insIndex) :
    keepMoves target (block.setMoves insIndex moves) index ins = keepMoves target block index ins := by
  simp only [keepMoves, setMoves_tryRemove hle]

theorem sharedFrom_zero : sharedFrom target block 0 = block := by
  have hlist : (block.instructions.mapIdx fun _ ins => ins) = block.instructions := by
    apply List.ext_getElem?
    intro j
    simp
  simp only [sharedFrom, Nat.not_lt_zero, if_false, hlist]

theorem getElem?_sharedFrom {index j : Nat} :
    (sharedFrom target block index).instructions[j]? =
      block.instructions[j]?.map fun ins => if j < index then keepMoves target block j ins else ins := by
  simp [sharedFrom, List.getElem?_mapIdx]

/-- Handling one more instruction: its moves are set, and then those before are handled. -/
theorem sharedFrom_succ {index : Nat} {ins : Instruction P V} (hins : block.instructions[index]? = some ins) :
    sharedFrom target (block.setMoves index (keepMoves target block index ins).moves) index =
      sharedFrom target block (index + 1) := by
  have hlist : (sharedFrom target (block.setMoves index (keepMoves target block index ins).moves)
      index).instructions = (sharedFrom target block (index + 1)).instructions := by
    apply List.ext_getElem?
    intro j
    rw [getElem?_sharedFrom, getElem?_sharedFrom, getElem?_setMoves]
    rcases Nat.lt_trichotomy j index with hlt | rfl | hgt
    · have hne : index ≠ j := by omega
      cases block.instructions[j]? with
      | none => rfl
      | some ins' =>
        simpa [hlt, Nat.lt_succ_of_lt hlt, hne] using keepMoves_setMoves (Nat.le_of_lt hlt)
    · simp [hins, keepMoves]
    · have hne : index ≠ j := by omega
      have hnot : ¬j < index := by omega
      have hnot' : ¬j < index + 1 := by omega
      simp [hne, hnot, hnot']
  exact congrArg (BasicBlock.mk · _) hlist

theorem sharedFrom_of_none {index : Nat} (hins : block.instructions[index]? = none) :
    sharedFrom target block (index + 1) = sharedFrom target block index := by
  have hlength := List.getElem?_eq_none_iff.mp hins
  have hlist : (sharedFrom target block (index + 1)).instructions = (sharedFrom target block index).instructions := by
    apply List.ext_getElem?
    intro j
    rw [getElem?_sharedFrom, getElem?_sharedFrom]
    cases h : block.instructions[j]? with
    | none => rfl
    | some ins =>
      have hj := (List.getElem?_eq_some_iff.mp h).1
      have hlt : j < index := by omega
      rw [Option.map_some, Option.map_some, if_pos hlt, if_pos (Nat.lt_succ_of_lt hlt)]
  exact congrArg (BasicBlock.mk · _) hlist

omit [DecidableEq P] [DecidableEq V] in
theorem supported_succ {index : Nat} {ins : Instruction P V} (hins : block.instructions[index]? = some ins) :
    Supported target block (index + 1) ↔
      Supported target block index ∧ ∀ move ∈ ins.moves, ¬move.Throws target := by
  constructor
  · intro h
    exact ⟨fun j hj => h j (Nat.lt_succ_of_lt hj), h index (Nat.lt_succ_self index) ins hins⟩
  · rintro ⟨h, hlast⟩ j hj ins' hins'
    rcases Nat.lt_succ_iff_lt_or_eq.mp hj with hlt | rfl
    · exact h j hlt ins' hins'
    · rw [hins] at hins'
      cases hins'
      exact hlast

omit [DecidableEq P] [DecidableEq V] in
theorem supported_setMoves {index : Nat} {moves : List (Move P V)} :
    Supported target (block.setMoves index moves) index ↔ Supported target block index := by
  have hsame : ∀ j < index, (block.setMoves index moves).instructions[j]? = block.instructions[j]? := by
    intro j hj
    have hne : index ≠ j := by omega
    exact getElem?_setMoves_ne hne
  constructor
  · intro h j hj ins hins
    exact h j hj ins ((hsame j hj).trans hins)
  · intro h j hj ins hins
    exact h j hj ins ((hsame j hj).symm.trans hins)

theorem handleInstructions_eq_some {index : Nat} {block' : BasicBlock P V} :
    handleInstructions target block index = some block' ↔
      Supported target block index ∧ block' = sharedFrom target block index := by
  induction index generalizing block with
  | zero => simp [handleInstructions, sharedFrom_zero, Supported, eq_comm]
  | succ index ih =>
    rw [handleInstructions]
    cases hins : block.instructions[index]? with
    | none =>
      have hsupported : Supported target block (index + 1) ↔ Supported target block index := by
        constructor
        · intro h j hj
          exact h j (Nat.lt_succ_of_lt hj)
        · intro h j hj ins hins'
          have hlt := (List.getElem?_eq_some_iff.mp hins').1
          have hlength := List.getElem?_eq_none_iff.mp hins
          exact h j (by omega) ins hins'
      simp only [ih, sharedFrom_of_none hins, hsupported]
    | some ins =>
      simp only [Option.bind_eq_bind, Option.bind_eq_some_iff, shareMoves_eq_some, List.nil_append]
      rw [supported_succ hins]
      constructor
      · rintro ⟨moves, ⟨hlast, rfl⟩, hrest⟩
        have hdone := ih.mp hrest
        exact ⟨⟨supported_setMoves.mp hdone.1, hlast⟩, hdone.2.trans (sharedFrom_succ hins)⟩
      · rintro ⟨⟨hbefore, hlast⟩, rfl⟩
        refine ⟨_, ⟨hlast, rfl⟩, ?_⟩
        exact ih.mpr ⟨supported_setMoves.mpr hbefore, (sharedFrom_succ hins).symm⟩

/-- The whole pass: it throws for a guard that is not supported, and otherwise filters every
instruction by what the search says on the block as given. -/
theorem handleBasicBlock_eq_some {block' : BasicBlock P V} :
    handleBasicBlock target block = some block' ↔
      Supported target block block.instructions.length ∧
        block' = sharedFrom target block block.instructions.length :=
  handleInstructions_eq_some

end Handle

end Tce.PostpassOperandSharer
