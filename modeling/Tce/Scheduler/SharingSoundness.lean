import Tce.Scheduler.OperandSharing

/-!
# When operand sharing is sound

The search does not ask whether the instruction of the move itself is an entry; it is sound
for the blocks where none of those moves writes its port again.
-/

namespace Tce.PostpassOperandSharer
variable {P V : Type} [DecidableEq P] [DecidableEq V] {target : Target P}

/-- Execution may start at the first instruction that is not skipped, and where a reference points. -/
def BasicBlock.IsEntry (block : BasicBlock P V) (entry : Nat) : Prop :=
  entry = block.skippedFirstInstructions ∨ ∃ ins, block.instructions[entry]? = some ins ∧ ins.hasReference = true

/-- A move that the pass takes out writes what its port has, each time that it would be executed. -/
def RemovesRedundant (target : Target P) (proc : Processor P V) (block block' : BasicBlock P V) (entry : Nat)
    (h : History P V proc.F) : Prop :=
  ∀ i ins ins', entry ≤ i → block.instructions[i]? = some ins → block'.instructions[i]? = some ins' →
    ∀ move ∈ ins.moves, move ∉ ins'.moves → proc.executes (proc.before target block entry h i) move = true →
      ∃ port, move.destination = .FUPort port ∧
        (proc.before target block entry h i).1.operands port =
          proc.read (proc.before target block entry h i).1 move.source

/-- What the pass is for: each entry leads through the same states as before. -/
def Sound (target : Target P) (block : BasicBlock P V) : Prop :=
  ∀ block', handleBasicBlock target block = some block' →
    ∀ (proc : Processor P V) (entry : Nat) (h : History P V proc.F), block.IsEntry entry →
      RemovesRedundant target proc block block' entry h ∧
        ∀ i, proc.before target block' entry h i = proc.before target block entry h i

/-- No move in an instruction that is an entry writes its port again. -/
def EntriesFresh (target : Target P) (block : BasicBlock P V) : Prop :=
  ∀ i ins, block.instructions[i]? = some ins → ins.hasReference = true →
    ∀ move ∈ ins.moves, ∀ port, ¬Repeats target block i move port

section Results
variable {block : BasicBlock P V}

theorem redundant_of_removed (hsched : block.Scheduled) (hfresh : EntriesFresh target block) {proc : Processor P V}
    {entry i : Nat} {h : History P V proc.F} {ins : Instruction P V} {move : Move P V} (hentry : block.IsEntry entry)
    (hi : entry ≤ i) (hins : block.instructions[i]? = some ins) (hm : move ∈ ins.moves)
    (hremove : tryRemoveOperandWrite target block i move = some true) :
    proc.Redundant target (proc.before target block entry h i) move := by
  have hlength := (List.getElem?_eq_some_iff.mp hins).1
  obtain ⟨-, port, hrep⟩ := (tryRemove_eq_some_true hsched (Nat.le_of_lt hlength)).mp hremove
  obtain ⟨k, hk⟩ := hrep.before
  have hle : entry ≤ k := by
    rcases hentry with rfl | ⟨ins', hins', hreference⟩
    · exact hk.skipped_le
    · by_contra hlt
      rcases Nat.lt_or_eq_of_le hi with hlt' | rfl
      · have hbetween := (hk.between entry ins' (by omega) hlt' hins').2
        rw [hreference] at hbetween
        cases hbetween
      · rw [hins] at hins'
        cases hins'
        exact hfresh entry ins hins hreference move hm port hrep
  refine ⟨?_, port, hrep.destination, ?_⟩
  · simp [Processor.isTrigger, hrep.destination, hrep.not_triggering, hrep.not_opcodeSetting]
  · intro _
    exact Processor.operands_of_writtenBefore hsched (Nat.le_of_lt hlength) hrep.source hk hle hk.lt (Nat.le_refl i)

/-- A guard that is not supported makes the pass throw, and there is no result. -/
def Throws (target : Target P) (block : BasicBlock P V) : Prop :=
  ∃ ins ∈ block.instructions, ∃ move ∈ ins.moves, move.Throws target

omit [DecidableEq P] [DecidableEq V] in
theorem supported_iff : Supported target block block.instructions.length ↔ ¬Throws target block := by
  constructor
  · rintro h ⟨ins, hins, move, hm, hthrows⟩
    obtain ⟨i, hi⟩ := List.mem_iff_getElem?.mp hins
    exact h i (List.getElem?_eq_some_iff.mp hi).1 ins hi move hm hthrows
  · intro h i _ ins hins move hm hthrows
    exact h ⟨ins, List.mem_of_getElem? hins, move, hm, hthrows⟩

theorem getElem?_result {i : Nat} {ins : Instruction P V} (hins : block.instructions[i]? = some ins) :
    (sharedFrom target block block.instructions.length).instructions[i]? = some (keepMoves target block i ins) := by
  rw [getElem?_sharedFrom, hins, Option.map_some, if_pos (List.getElem?_eq_some_iff.mp hins).1]

theorem before_result (hsched : block.Scheduled) (hfresh : EntriesFresh target block) {proc : Processor P V}
    {entry : Nat} {h : History P V proc.F} (hentry : block.IsEntry entry) (i : Nat) :
    proc.before target (sharedFrom target block block.instructions.length) entry h i =
      proc.before target block entry h i := by
  induction i with
  | zero => simp [Processor.before]
  | succ i ih =>
    by_cases hi : entry ≤ i
    · cases hins : block.instructions[i]? with
      | none =>
        have hnone : (sharedFrom target block block.instructions.length).instructions[i]? = none := by
          rw [getElem?_sharedFrom, hins, Option.map_none]
        rw [Processor.before_of_none target proc hins, Processor.before_of_none target proc hnone, ih]
      | some ins =>
        rw [Processor.before_succ target proc hi hins, Processor.before_succ target proc hi (getElem?_result hins), ih]
        apply Processor.step_filter (hsched ins (List.mem_of_getElem? hins))
        intro m hm hkeep
        exact redundant_of_removed hsched hfresh hentry hi hins hm (by simpa using hkeep)
    · have hle : i + 1 ≤ entry := by omega
      simp [Processor.before, Nat.sub_eq_zero_of_le hle]

theorem sound_of_entriesFresh (hsched : block.Scheduled) (hfresh : EntriesFresh target block) :
    Sound target block := by
  intro block' hhandle proc entry h hentry
  obtain ⟨-, rfl⟩ := handleBasicBlock_eq_some.mp hhandle
  constructor
  · intro i ins ins' hi hins hins' move hm hnot he
    rw [getElem?_result hins] at hins'
    cases hins'
    have hremove : tryRemoveOperandWrite target block i move = some true := by
      by_contra hkeep
      exact hnot (List.mem_filter.mpr ⟨hm, decide_eq_true hkeep⟩)
    obtain ⟨-, port, hdst, hvalue⟩ := redundant_of_removed hsched hfresh hentry hi hins hm hremove
    exact ⟨port, hdst, hvalue he⟩
  · intro i
    exact before_result hsched hfresh hentry i

/-- A processor that executes one move, and tests no other guard as true. -/
def executing (value : V) (move : Move P V) : Processor P V where
  F := Unit
  output := fun _ _ => value
  longImmediate := fun _ _ _ => value
  operate := fun _ _ _ => ()
  test := fun guard _ => decide (move.guard = some guard)
  test_opposite := by
    intro g g' _ hopp htest
    rw [decide_eq_true_iff] at htest
    apply decide_eq_false
    intro htest'
    rw [htest, Option.some_inj] at htest'
    subst htest'
    rw [Guard.isOpposite_irrefl] at hopp
    cases hopp

omit [DecidableEq P] [DecidableEq V] in
theorem executes_executing {value : V} {move : Move P V} {h : History P V (executing value move).F} :
    (executing value move).executes h move = true := by
  cases hg : move.guard with
  | none => simp [Processor.executes, hg]
  | some g =>
    rw [Processor.executes, hg, Option.all_some]
    exact decide_eq_true hg

theorem not_sound_of_repeats [Nontrivial V] (hsched : block.Scheduled) (hthrows : ¬Throws target block) {i : Nat}
    {ins : Instruction P V} {move : Move P V} {port : P} (hins : block.instructions[i]? = some ins)
    (hreference : ins.hasReference = true) (hm : move ∈ ins.moves) (hrep : Repeats target block i move port) :
    ¬Sound target block := by
  intro hsound
  have hhandle : handleBasicBlock target block = some (sharedFrom target block block.instructions.length) :=
    handleBasicBlock_eq_some.mpr ⟨supported_iff.mpr hthrows, rfl⟩
  have hnot : ¬move.Throws target := fun hthrow => hthrows ⟨ins, List.mem_of_getElem? hins, move, hm, hthrow⟩
  have hremove : tryRemoveOperandWrite target block i move = some true :=
    (tryRemove_eq_some_true hsched (Nat.le_of_lt (List.getElem?_eq_some_iff.mp hins).1)).mpr ⟨hnot, port, hrep⟩
  have hout : move ∉ (keepMoves target block i ins).moves := by
    intro hmem
    exact of_decide_eq_true (List.mem_filter.mp hmem).2 hremove
  -- the registers have one value, and the port another than what the move reads
  obtain ⟨value, -, -⟩ := exists_pair_ne V
  let s : State P V (executing value move).F := ⟨fun _ _ => value, fun _ => value, ()⟩
  obtain ⟨other, hother⟩ := exists_ne ((executing value move).read s move.source)
  let start : History P V (executing value move).F := (⟨fun _ _ => value, fun _ => other, ()⟩, [])
  obtain ⟨hred, -⟩ := hsound _ hhandle (executing value move) i start (.inr ⟨ins, hins, hreference⟩)
  obtain ⟨port', hdst, hvalue⟩ := hred i ins _ (Nat.le_refl i) hins (getElem?_result hins) move hm hout executes_executing
  rw [Processor.before_entry] at hvalue
  apply hother
  calc other = (executing value move).read start.1 move.source := hvalue
    _ = (executing value move).read s move.source := by cases move.source <;> rfl

/-- The pass is sound exactly for the blocks where no entry is an instruction with a move that
it takes out, apart from those for which it throws. -/
theorem sound_iff [Nontrivial V] (hsched : block.Scheduled) :
    Sound target block ↔ Throws target block ∨ EntriesFresh target block := by
  constructor
  · intro hsound
    by_cases hthrows : Throws target block
    · exact .inl hthrows
    · right
      intro i ins hins hreference move hm port hrep
      exact not_sound_of_repeats hsched hthrows hins hreference hm hrep hsound
  · rintro (hthrows | hfresh)
    · intro block' hhandle
      exact absurd hthrows (supported_iff.mp (handleBasicBlock_eq_some.mp hhandle).1)
    · exact sound_of_entriesFresh hsched hfresh

end Results

/-- The operand port 0 is written twice from a register, and an operation triggered at port 1. -/
def writtenTwice (secondIsEntry : Bool) : BasicBlock Nat Nat where
  instructions :=
    [⟨[⟨.GPR 0 1, .FUPort 0, none⟩], false⟩,
     ⟨[⟨.GPR 0 1, .FUPort 0, none⟩], secondIsEntry⟩,
     ⟨[⟨.immediate 5, .FUPort 1, none⟩], false⟩]
  skippedFirstInstructions := 0

def triggerAtOne : Target Nat where
  isTriggering := fun port => port == 1
  isOpcodeSetting := fun port => port == 1
  guardLatency := fun _ => 1

theorem writtenTwice_scheduled (secondIsEntry : Bool) : (writtenTwice secondIsEntry).Scheduled := by
  simp [BasicBlock.Scheduled, PortsExclusive, writtenTwice]

theorem writtenTwice_supported (secondIsEntry : Bool) : ¬Throws triggerAtOne (writtenTwice secondIsEntry) := by
  simp [Throws, Move.Throws, Move.guardLatency, writtenTwice]

/-- Without the reference the second write is taken out as it should be. -/
theorem sound_writtenTwice : Sound triggerAtOne (writtenTwice false) :=
  (sound_iff (writtenTwice_scheduled false)).mpr (.inr (by
    intro i ins hins hreference
    have hmem := List.mem_of_getElem? hins
    simp only [writtenTwice, List.mem_cons, List.not_mem_nil, or_false] at hmem
    rcases hmem with rfl | rfl | rfl
    · cases hreference
    · cases hreference
    · cases hreference))

/-- With it, execution that starts there finds what happened to be in the port. -/
theorem not_sound_writtenTwice : (writtenTwice true).Scheduled ∧ ¬Sound triggerAtOne (writtenTwice true) := by
  have hsched := writtenTwice_scheduled true
  have htry : tryRemoveOperandWrite triggerAtOne (writtenTwice true) 1 ⟨.GPR 0 1, .FUPort 0, none⟩ = some true := by
    decide
  have hlength : 1 ≤ (writtenTwice true).instructions.length := by decide
  obtain ⟨-, port, hrep⟩ := (tryRemove_eq_some_true hsched hlength).mp htry
  have hins : (writtenTwice true).instructions[1]? = some ⟨[⟨.GPR 0 1, .FUPort 0, none⟩], true⟩ := rfl
  exact ⟨hsched, not_sound_of_repeats hsched (writtenTwice_supported true) hins rfl List.mem_cons_self hrep⟩

end Tce.PostpassOperandSharer
