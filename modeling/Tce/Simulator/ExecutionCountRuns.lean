import Tce.Simulator.ExecutionCounts

/-!
# Execution counts of whole runs

The counts of the compiled simulator are those of the interpretive one, when the counter of
each block is found from its addresses and is in the table, and no block is left at an exit
point after unguarded moves.
-/

namespace Tce.CompiledSimulation

/-! ## Blocks -/

/-- Each address is in one of the blocks, and in no other. -/
structure Partition (first last : Nat) (blocks : List (Nat × Nat)) : Prop where
  inside : ∀ b ∈ blocks, first ≤ b.1 ∧ b.1 ≤ b.2 ∧ b.2 ≤ last
  covers : ∀ a, first ≤ a → a ≤ last → ∃ b ∈ blocks, b.1 ≤ a ∧ a ≤ b.2
  disjoint : ∀ b ∈ blocks, ∀ b' ∈ blocks, ∀ a, b.1 ≤ a → a ≤ b.2 → b'.1 ≤ a → a ≤ b'.2 → b = b'

variable {first last : Nat} {blocks nodes : List (Nat × Nat)} {b : Nat × Nat} {a : Nat}

theorem partition_single (h : first ≤ last) : Partition first last [(first, last)] where
  inside b hb := by
    rw [List.mem_singleton.1 hb]
    exact ⟨Nat.le_refl _, h, Nat.le_refl _⟩
  covers a ha hlast := ⟨(first, last), List.mem_cons_self, ha, hlast⟩
  disjoint b hb b' hb' _ _ _ _ _ := (List.mem_singleton.1 hb).trans (List.mem_singleton.1 hb').symm

theorem partition_nil (h : last < first) : Partition first last [] where
  inside _ hb := absurd hb List.not_mem_nil
  covers _ ha hlast := absurd (Nat.le_trans ha hlast) (Nat.not_le.2 h)
  disjoint _ hb := absurd hb List.not_mem_nil

/-- A block before a partition of the rest. -/
theorem Partition.cons {mid : Nat} (h : Partition (mid + 1) last blocks) (hfirst : first ≤ mid) (hmid : mid ≤ last) :
    Partition first last ((first, mid) :: blocks) where
  inside b hb := by
    rcases List.mem_cons.1 hb with rfl | hb
    · exact ⟨Nat.le_refl _, hfirst, hmid⟩
    · have := h.inside b hb
      omega
  covers a ha hlast := by
    by_cases hin : a ≤ mid
    · exact ⟨(first, mid), List.mem_cons_self, ha, hin⟩
    · obtain ⟨b, hb, hab⟩ := h.covers a (by omega) hlast
      exact ⟨b, List.mem_cons_of_mem _ hb, hab⟩
  disjoint b hb b' hb' a hba hab hba' hab' := by
    rcases List.mem_cons.1 hb with rfl | hb <;> rcases List.mem_cons.1 hb' with rfl | hb'
    · rfl
    · have := h.inside b' hb'
      omega
    · have := h.inside b hb
      omega
    · exact h.disjoint b hb b' hb' a hba hab hba' hab'

theorem partition_splitBlock (maxInstructions delaySlots : Nat) :
    Partition first last (splitBlock maxInstructions delaySlots first last) := by
  fun_induction splitBlock maxInstructions delaySlots first last with
  | case1 first hlt blockEnd' blockEnd ih =>
    refine ih.cons ?_ ?_
    · simp only [blockEnd, blockEnd']
      split <;> omega
    · simp only [blockEnd, blockEnd']
      split <;> omega
  | case2 first hge hle =>
    exact partition_single hle
  | case3 first hge hgt =>
    exact partition_nil (by omega)

/-- Blocks that are split each by itself. -/
theorem Partition.flatMap (h : Partition first last nodes) {split : Nat × Nat → List (Nat × Nat)}
    (hsplit : ∀ b ∈ nodes, Partition b.1 b.2 (split b)) : Partition first last (nodes.flatMap split) where
  inside b hb := by
    obtain ⟨node, hnode, hb⟩ := List.mem_flatMap.1 hb
    have := h.inside node hnode
    have := (hsplit node hnode).inside b hb
    omega
  covers a ha hlast := by
    obtain ⟨node, hnode, hfrom, hto⟩ := h.covers a ha hlast
    obtain ⟨b, hb, hab⟩ := (hsplit node hnode).covers a hfrom hto
    exact ⟨b, List.mem_flatMap.2 ⟨node, hnode, hb⟩, hab⟩
  disjoint b hb b' hb' a hba hab hba' hab' := by
    obtain ⟨node, hnode, hb⟩ := List.mem_flatMap.1 hb
    obtain ⟨node', hnode', hb'⟩ := List.mem_flatMap.1 hb'
    have hin := (hsplit node hnode).inside b hb
    have hin' := (hsplit node' hnode').inside b' hb'
    have hsame := h.disjoint node hnode node' hnode' a (by omega) (by omega) (by omega) (by omega)
    subst hsame
    exact (hsplit node hnode).disjoint b hb b' hb' a hba hab hba' hab'

theorem partition_findBasicBlocks (h : Partition first last nodes) (maxInstructions delaySlots : Nat) :
    Partition first last (findBasicBlocks maxInstructions delaySlots nodes) := by
  refine h.flatMap fun node hnode => ?_
  split
  · exact partition_splitBlock maxInstructions delaySlots
  · exact partition_single (h.inside node hnode).2.1

/-- A block is known by any of its addresses, also by its first and last. -/
theorem Partition.eq_of_start (h : Partition first last blocks) {b' : Nat × Nat} (hb : b ∈ blocks) (hb' : b' ∈ blocks)
    (hstart : b.1 = b'.1) : b = b' := by
  have := h.inside b hb
  have := h.inside b' hb'
  exact h.disjoint b hb b' hb' b.1 (Nat.le_refl _) (by omega) (by omega) (by omega)

theorem Partition.eq_of_end (h : Partition first last blocks) {b' : Nat × Nat} (hb : b ∈ blocks) (hb' : b' ∈ blocks)
    (hend : b.2 = b'.2) : b = b' := by
  have := h.inside b hb
  have := h.inside b' hb'
  exact h.disjoint b hb b' hb' b.2 (by omega) (Nat.le_refl _) (by omega) (by omega)

theorem ordered_bbEnds (blocks : List (Nat × Nat)) : OrderedMap.Ordered (bbEnds blocks) :=
  OrderedMap.ordered_foldl_set _

theorem mem_bbEnds (h : Partition first last blocks) {e : Nat × Nat} : e ∈ bbEnds blocks ↔ (e.2, e.1) ∈ blocks := by
  rw [bbEnds, OrderedMap.mem_foldl_set, List.mem_map]
  · constructor
    · rintro ⟨b, hb, rfl⟩
      exact hb
    · intro he
      exact ⟨(e.2, e.1), he, rfl⟩
  · intro e he e' he' hkey
    obtain ⟨b, hb, rfl⟩ := List.mem_map.1 he
    obtain ⟨b', hb', rfl⟩ := List.mem_map.1 he'
    rw [h.eq_of_end hb hb' hkey]

/-- The block of an address is found by the first end that is not before it. -/
theorem lowerBound_bbEnds (h : Partition first last blocks) (hb : b ∈ blocks) (hfrom : b.1 ≤ a) (hto : a ≤ b.2) :
    OrderedMap.lowerBound (bbEnds blocks) a = some (b.2, b.1) := by
  refine OrderedMap.lowerBound_of_mem (ordered_bbEnds blocks) ((mem_bbEnds h).2 hb) hto ?_
  intro e he hle
  by_contra hlt
  have hblock := (mem_bbEnds h).1 he
  have hin := h.inside _ hblock
  have hsame := h.disjoint b hb (e.2, e.1) hblock e.1 (by omega) (by omega) (by omega) (Nat.le_refl _)
  rw [hsame] at hlt
  exact hlt (Nat.le_refl _)

theorem isBlockEnd_iff (c : Code) (h : Partition first last c.blocks) :
    c.isBlockEnd a = true ↔ ∃ b ∈ c.blocks, b.2 = a := by
  rw [Code.isBlockEnd]
  constructor
  · intro hsome
    obtain ⟨start, hstart⟩ := Option.isSome_iff_exists.1 hsome
    exact ⟨(start, a), (mem_bbEnds h).1 (OrderedMap.mem_of_find hstart), rfl⟩
  · rintro ⟨b, hb, rfl⟩
    have hmem : (b.2, b.1) ∈ bbEnds c.blocks := (mem_bbEnds h).2 hb
    rw [OrderedMap.find_of_mem (ordered_bbEnds c.blocks) hmem]
    rfl

/-! ## Numbers of moves -/

namespace Program
variable {p : Program} {n i : Nat}

theorem firstMove_succ : p.firstMove (n + 1) = p.firstMove n + ((p.instructions[n]?).getD []).length := by
  rw [firstMove, firstMove, List.take_add_one, List.map_append, List.sum_append]
  cases p.instructions[n]? <;> simp

theorem firstMove_le {m : Nat} (h : n ≤ m) : p.firstMove n ≤ p.firstMove m := by
  induction h with
  | refl => exact Nat.le_refl _
  | step _ ih =>
    rw [firstMove_succ]
    omega

theorem moveNumber_lt (hi : i < ((p.instructions[n]?).getD []).length) : p.firstMove n + i < p.moveCount := by
  have hn : n < p.instructions.length := by
    by_contra hout
    rw [List.getElem?_eq_none (Nat.le_of_not_lt hout)] at hi
    exact absurd hi (Nat.not_lt_zero _)
  have hall : p.firstMove p.instructions.length = p.moveCount := by rw [firstMove, List.take_length, moveCount]
  have hle : p.firstMove (n + 1) ≤ p.firstMove p.instructions.length := firstMove_le hn
  rw [firstMove_succ] at hle
  omega

/-- Moves of different instructions have different numbers. -/
theorem moveNumber_injective {m j : Nat} (hi : i < ((p.instructions[n]?).getD []).length)
    (hj : j < ((p.instructions[m]?).getD []).length) (h : p.firstMove n + i = p.firstMove m + j) : n = m ∧ i = j := by
  rcases Nat.lt_trichotomy n m with hlt | rfl | hgt
  · have hle : p.firstMove (n + 1) ≤ p.firstMove m := firstMove_le hlt
    rw [firstMove_succ] at hle
    omega
  · exact ⟨rfl, by omega⟩
  · have hle : p.firstMove (m + 1) ≤ p.firstMove n := firstMove_le hgt
    rw [firstMove_succ] at hle
    omega

end Program

/-! ## One instruction -/

section Instruction
variable {c : Code} (guards : Nat → Nat → Bool) {e : Engine} {s : Interpreter} {address i pos : Nat} {move : Move}

theorem mem_instruction_of_movesAt (hi : i < (c.program.movesAt address).length) :
    c.program.startAddress ≤ address ∧
      i < ((c.program.instructions[address - c.program.startAddress]?).getD []).length := by
  unfold Program.movesAt at hi
  split at hi
  · exact absurd hi (Nat.not_lt_zero i)
  · next hin => exact ⟨Nat.le_of_not_lt hin, hi⟩

/-- Whether a move is counted by itself when its instruction is executed. -/
def isCounted (c : Code) (guards : Nat → Bool) (address i : Nat) : Bool :=
  match (c.program.movesAt address)[i]? with
  | some move => if move.isUnconditional then address ∈ c.exitPoints else guards i
  | none => false

theorem countedMoves_lt {g : Nat → Bool} : ∀ k ∈ Engine.countedMoves c g pos, k < c.program.moveCount := by
  intro k hk
  obtain ⟨j, hj, rfl⟩ := List.mem_map.1 hk
  exact Program.moveNumber_lt (mem_instruction_of_movesAt (List.mem_range.1 (List.mem_filter.1 hj).1)).2

/-- A move is counted in its own instruction only, and once. -/
theorem count_countedMoves {g : Nat → Bool} (hmove : (c.program.movesAt address)[i]? = some move) :
    (Engine.countedMoves c g pos).count (c.program.moveNumber address i) =
      if address = pos ∧ isCounted c g address i then 1 else 0 := by
  have hi : i < (c.program.movesAt address).length := (List.getElem?_eq_some_iff.1 hmove).1
  have hinjective : ∀ j, j < (c.program.movesAt pos).length →
      c.program.moveNumber address i = c.program.moveNumber pos j → address = pos ∧ i = j := by
    intro j hj heq
    obtain ⟨hfrom, hi⟩ := mem_instruction_of_movesAt hi
    obtain ⟨hfrom', hj⟩ := mem_instruction_of_movesAt hj
    obtain ⟨hsame, hij⟩ := Program.moveNumber_injective hi hj heq
    exact ⟨by omega, hij⟩
  by_cases hsame : address = pos ∧ isCounted c g address i = true
  · obtain ⟨rfl, hcounted⟩ := hsame
    rw [if_pos ⟨rfl, hcounted⟩]
    apply List.count_eq_one_of_mem
    · refine List.Nodup.map_on ?_ (List.nodup_range.filter _)
      intro j hj k _ heq
      exact Nat.add_left_cancel heq
    · exact List.mem_map.2 ⟨i, List.mem_filter.2 ⟨List.mem_range.2 hi, hcounted⟩, rfl⟩
  · rw [if_neg hsame]
    apply List.count_eq_zero.2
    intro hmem
    obtain ⟨j, hj, heq⟩ := List.mem_map.1 hmem
    obtain ⟨hlt, hcounted⟩ := List.mem_filter.1 hj
    obtain ⟨rfl, rfl⟩ := hinjective j (List.mem_range.1 hlt) heq.symm
    exact hsame ⟨rfl, hcounted⟩

/-- The counts agree but for those of the unguarded moves in the part of a block that was
executed, from its start on and before an address. -/
structure Agree (c : Code) (start pos : Nat) (e : Engine) (s : Interpreter) : Prop where
  moveLength : e.moveExecCounts.length = c.program.moveCount
  bbLength : e.bbExecCounts.length = c.program.lastInstruction + 1 - c.program.entryAddress
  clock : e.cycleCount = s.clockCount
  finished : e.isFinished = s.isFinished
  counted : ∀ address i move, (c.program.movesAt address)[i]? = some move →
    (move.isUnconditional = true → address ∈ c.exitPoints) →
    e.moveExecCounts.getD (c.program.moveNumber address i) 0 = s.executionCount address i
  uncounted : ∀ address i move, (c.program.movesAt address)[i]? = some move → move.isUnconditional = true →
    address ∉ c.exitPoints → ∀ b ∈ c.blocks, b.1 ≤ address → address ≤ b.2 →
    e.bbExecCounts.getD b.1 0 + (if start ≤ address ∧ address < pos then 1 else 0) = s.executionCount address i

/-- The counter of the block is found from the address, and is in the table. -/
def FoundAt (c : Code) (b : Nat × Nat) (address : Nat) : Prop :=
  c.basicBlockStart (address - c.program.startAddress) = some b.1 ∧
    b.1 < c.program.lastInstruction + 1 - c.program.entryAddress

theorem executes_eq {g : Nat → Bool} (hmove : (c.program.movesAt address)[i]? = some move) :
    Interpreter.executes c.program g pos address i = (address = pos && (move.isUnconditional || g i)) := by
  rw [Interpreter.executes, hmove]

theorem isCounted_eq {g : Nat → Bool} (hmove : (c.program.movesAt address)[i]? = some move)
    (hcounted : move.isUnconditional = true → address ∈ c.exitPoints) :
    isCounted c g address i = (move.isUnconditional || g i) := by
  rw [isCounted, hmove]
  cases hguard : move.isUnconditional with
  | true => simp [hguard, hcounted hguard]
  | false => simp [hguard]

/-- The instruction of an address in a block. At the end of the block its moves have their counts. -/
theorem agree_instruction (hp : Partition first last c.blocks) {b : Nat × Nat} (hb : b ∈ c.blocks) (hfrom : b.1 ≤ pos)
    (hto : pos ≤ b.2) (hended : pos = b.2 → FoundAt c b pos) (h : Agree c b.1 pos e s) : ∃ e', e.executeInstruction c guards pos = some e' ∧
      e'.isFinished = decide (pos ∈ c.exitPoints) ∧
      Agree c b.1 (if pos = b.2 then b.1 else pos + 1) e' (s.simulateCycle c guards pos) := by
  have hinMoves : ∀ k ∈ Engine.countedMoves c (guards e.cycleCount) pos, k < e.moveExecCounts.length :=
    fun k hk => h.moveLength ▸ countedMoves_lt k hk
  obtain ⟨moveTable, hmoves, hmoveLength, hmoveCount⟩ := Counters.foldlM_increment hinMoves
  -- the table of the blocks is incremented at the end of the block only
  obtain ⟨bbTable, hbb, hbbLength, hbbCount⟩ : ∃ bbTable,
      Engine.countBlock c e.bbExecCounts pos = some bbTable ∧ bbTable.length = e.bbExecCounts.length ∧
      ∀ k, bbTable.getD k 0 = e.bbExecCounts.getD k 0 + if pos = b.2 ∧ k = b.1 then 1 else 0 := by
    by_cases hend : pos = b.2
    · have hisEnd : c.isBlockEnd pos = true := (isBlockEnd_iff c hp).2 ⟨b, hb, hend.symm⟩
      obtain ⟨hlookup, hinTable⟩ := hended hend
      have hinBlocks : ∀ k ∈ [b.1], k < e.bbExecCounts.length := by
        intro k hk
        rw [List.mem_singleton.1 hk, h.bbLength]
        exact hinTable
      obtain ⟨bbTable, hrun, hlength, hcount⟩ := Counters.foldlM_increment hinBlocks
      refine ⟨bbTable, ?_, hlength, ?_⟩
      · rw [Engine.countBlock, if_pos hisEnd, hlookup, Option.bind_some]
        simpa using hrun
      · intro k
        rw [hcount, List.count_singleton]
        by_cases hk : k = b.1
        · simp [hk, hend]
        · simp [hk, Ne.symm hk]
    · have hisNot : ¬c.isBlockEnd pos = true := by
        rw [isBlockEnd_iff c hp]
        rintro ⟨b', hb', hend'⟩
        have hin := hp.inside b' hb'
        have hsame := hp.disjoint b hb b' hb' pos hfrom hto (by omega) (by omega)
        subst hsame
        exact hend hend'.symm
      refine ⟨e.bbExecCounts, if_neg hisNot, rfl, ?_⟩
      intro k
      simp [hend]
  refine ⟨⟨moveTable, bbTable, e.cycleCount + 1, decide (pos ∈ c.exitPoints)⟩, ?_, rfl, ?_⟩
  · rw [Engine.executeInstruction, hmoves, hbb]
    rfl
  · exact {
      moveLength := hmoveLength.trans h.moveLength
      bbLength := hbbLength.trans h.bbLength
      clock := congrArg (· + 1) h.clock
      finished := rfl
      counted := by
        intro address i move hmove hcounted
        have hbefore := h.counted address i move hmove hcounted
        have hcount := @count_countedMoves c address i pos move (guards e.cycleCount) hmove
        rw [isCounted_eq hmove hcounted] at hcount
        rw [hmoveCount, hbefore, hcount, Interpreter.executionCount_simulateCycle, executes_eq hmove, h.clock]
        simp only [Bool.and_eq_true, decide_eq_true_eq]
      uncounted := by
        intro address i move hmove huncond hexit b' hb' hfrom' hto'
        have hbefore := h.uncounted address i move hmove huncond hexit b' hb' hfrom' hto'
        have hsame : b'.1 = b.1 ↔ b.1 ≤ address ∧ address ≤ b.2 := by
          constructor
          · intro hstart
            have := hp.eq_of_start hb' hb hstart
            subst this
            exact ⟨hfrom', hto'⟩
          · rintro ⟨hlow, hhigh⟩
            rw [hp.disjoint b' hb' b hb address hfrom' hto' hlow hhigh]
        simp only [hbbCount, Interpreter.executionCount_simulateCycle, executes_eq hmove, huncond, Bool.true_or, Bool.and_true,
          decide_eq_true_eq, hsame]
        by_cases hend : pos = b.2
        · rw [if_pos hend]
          split_ifs at hbefore ⊢ <;> omega
        · rw [if_neg hend]
          split_ifs at hbefore ⊢ <;> omega }

/-! ## Blocks and runs -/

/-- A block that is not left before its end is counted. -/
def CountedAtEnd (c : Code) (b : Nat × Nat) : Prop :=
  (∀ address, b.1 ≤ address → address < b.2 → address ∉ c.exitPoints) → FoundAt c b b.2

/-- A block that is left at an exit point has no unguarded moves before it. -/
def LeftAfterGuarded (c : Code) (b : Nat × Nat) : Prop :=
  ∀ exit ∈ c.exitPoints, exit < b.2 → (∀ address, b.1 ≤ address → address < exit → address ∉ c.exitPoints) →
    ∀ address, b.1 ≤ address → address < exit → ∀ move ∈ c.program.movesAt address, move.isUnconditional = false

/-- What was executed of a block does not matter when its moves are counted by themselves. -/
theorem Agree.restart {start start' : Nat} (h : Agree c start pos e s)
    (hguarded : ∀ address, start ≤ address → address < pos → address ∉ c.exitPoints →
      ∀ move ∈ c.program.movesAt address, move.isUnconditional = false) : Agree c start' start' e s :=
  { h with
    uncounted := by
      intro address i move hmove huncond hexit b hb hfrom hto
      rw [if_neg (by omega), ← h.uncounted address i move hmove huncond hexit b hb hfrom hto, if_neg]
      rintro ⟨hlow, hhigh⟩
      rw [hguarded address hlow hhigh hexit move (List.mem_of_getElem? hmove)] at huncond
      cases huncond }

theorem foldlM_of_finished (hfinished : e.isFinished = true) (addresses : List Nat) :
    addresses.foldlM (fun e address => if e.isFinished then some e else e.executeInstruction c guards address) e =
      some e := by
  induction addresses with
  | nil => rfl
  | cons address addresses ih =>
    rw [List.foldlM_cons, if_pos hfinished]
    exact ih

theorem run_of_finished (hfinished : s.isFinished = true) (pcs : List Nat) :
    Interpreter.run c guards s pcs = s := by
  induction pcs with
  | nil => rfl
  | cons pc pcs ih =>
    rw [Interpreter.run, List.foldl_cons, if_pos hfinished]
    exact ih

/-- The rest of a block. -/
theorem agree_rest (hp : Partition first last c.blocks) {b : Nat × Nat} (hb : b ∈ c.blocks)
    (hended : CountedAtEnd c b) (hleft : LeftAfterGuarded c b) (n : Nat) (hn : pos + n = b.2) (hfrom : b.1 ≤ pos) (hno : ∀ address, b.1 ≤ address → address < pos → address ∉ c.exitPoints)
    (hrunning : e.isFinished = false) (h : Agree c b.1 pos e s) :
    ∃ e', (List.range' pos (n + 1)).foldlM
        (fun e address => if e.isFinished then some e else e.executeInstruction c guards address) e = some e' ∧
      Agree c 0 0 e' (Interpreter.run c guards s (List.range' pos (n + 1))) := by
  induction n generalizing pos e s with
  | zero =>
    obtain rfl : pos = b.2 := hn
    obtain ⟨e', hstep, _, hagree⟩ := agree_instruction guards hp hb hfrom (Nat.le_refl _) (fun _ => hended hno) h
    rw [if_pos rfl] at hagree
    refine ⟨e', ?_, ?_⟩
    · rw [List.range'_one, List.foldlM_cons, if_neg (by simp [hrunning]), hstep]
      rfl
    · rw [List.range'_one, Interpreter.run, List.foldl_cons, if_neg (by simp [← h.finished, hrunning])]
      exact hagree.restart fun address hlow hhigh => absurd hlow (by omega)
  | succ n ih =>
    have hbefore : pos ≠ b.2 := by omega
    obtain ⟨e', hstep, hfinished, hagree⟩ :=
      agree_instruction guards hp hb hfrom (by omega) (fun heq => absurd heq hbefore) h
    rw [if_neg hbefore] at hagree
    have hcompiled : ∀ rest : List Nat, (pos :: rest).foldlM
        (fun e address => if e.isFinished then some e else e.executeInstruction c guards address) e =
        rest.foldlM (fun e address => if e.isFinished then some e else e.executeInstruction c guards address) e' := by
      intro rest
      rw [List.foldlM_cons, if_neg (by simp [hrunning]), hstep]
      rfl
    have hinterpreted : ∀ rest : List Nat, Interpreter.run c guards s (pos :: rest) =
        Interpreter.run c guards (s.simulateCycle c guards pos) rest := by
      intro rest
      rw [Interpreter.run, List.foldl_cons, if_neg (by simp [← h.finished, hrunning])]
      rfl
    rw [List.range'_succ, hcompiled, hinterpreted]
    by_cases hexit : pos ∈ c.exitPoints
    · have hdone : e'.isFinished = true := hfinished.trans (decide_eq_true hexit)
      rw [foldlM_of_finished guards hdone, run_of_finished guards (hagree.finished.symm.trans hdone)]
      refine ⟨e', rfl, hagree.restart fun address hlow hhigh hother => ?_⟩
      have hbefore : address < pos := by
        have : address ≠ pos := fun heq => hother (heq ▸ hexit)
        omega
      exact hleft pos hexit (by omega) hno address hlow hbefore
    · refine ih (by omega) (by omega) ?_ (hfinished.trans (decide_eq_false hexit)) hagree
      intro address hlow hhigh
      rcases Nat.lt_or_eq_of_le (Nat.le_of_lt_succ hhigh) with hlt | rfl
      · exact hno address hlow hlt
      · exact hexit

theorem addressesOf_eq (hp : Partition first last c.blocks) {b : Nat × Nat} (hb : b ∈ c.blocks) :
    Engine.addressesOf c b.1 = List.range' b.1 (b.2 + 1 - b.1) := by
  have hin := hp.inside b hb
  rw [Engine.addressesOf, lowerBound_bbEnds hp hb (Nat.le_refl _) hin.2.1]

theorem agree_block (hp : Partition first last c.blocks) {b : Nat × Nat} (hb : b ∈ c.blocks)
    (hended : CountedAtEnd c b) (hleft : LeftAfterGuarded c b) (hrunning : e.isFinished = false) (h : Agree c 0 0 e s) : ∃ e', e.simulateBlock c guards b.1 = some e' ∧
      Agree c 0 0 e' (Interpreter.run c guards s (Engine.addressesOf c b.1)) := by
  have hin := hp.inside b hb
  have hlength : b.2 + 1 - b.1 = b.2 - b.1 + 1 := by omega
  rw [Engine.simulateBlock, addressesOf_eq hp hb, hlength]
  refine agree_rest guards hp hb hended hleft (b.2 - b.1) (by omega) (Nat.le_refl _) (fun address hlow hhigh => ?_)
    hrunning ?_
  · omega
  · exact h.restart fun address _ hhigh => absurd hhigh (Nat.not_lt_zero address)

/-- A run from block to block. -/
theorem agree_run (hp : Partition first last c.blocks) (targets : List Nat)
    (htargets : ∀ t ∈ targets, ∃ b ∈ c.blocks, b.1 = t ∧ CountedAtEnd c b ∧ LeftAfterGuarded c b) (h : Agree c 0 0 e s) :
    ∃ e', e.run c guards targets = some e' ∧
      Agree c 0 0 e' (Interpreter.run c guards s (targets.flatMap (Engine.addressesOf c))) := by
  induction targets generalizing e s with
  | nil => exact ⟨e, rfl, h⟩
  | cons target targets ih =>
    obtain ⟨b, hb, rfl, hended, hleft⟩ := htargets target List.mem_cons_self
    have hlater := fun t ht => htargets t (List.mem_cons_of_mem b.1 ht)
    rw [Engine.run, List.foldlM_cons, List.flatMap_cons, Interpreter.run, List.foldl_append]
    by_cases hfinished : e.isFinished = true
    · rw [if_pos hfinished]
      have hsame : Interpreter.run c guards s (Engine.addressesOf c b.1) = s :=
        run_of_finished guards (h.finished.symm.trans hfinished) _
      rw [Interpreter.run] at hsame
      rw [hsame]
      exact ih hlater h
    · obtain ⟨next, hnext, hagree⟩ := agree_block guards hp hb hended hleft (Bool.eq_false_iff.2 hfinished) h
      rw [if_neg hfinished, hnext]
      exact ih hlater hagree

theorem agree_new : Agree c 0 0 (Engine.new c.program) Interpreter.new where
  moveLength := List.length_replicate
  bbLength := List.length_replicate
  clock := rfl
  finished := rfl
  counted _ _ _ _ _ := Counters.getD_replicate_zero ..
  uncounted _ _ _ _ _ _ _ _ _ _ := by
    rw [if_neg (by omega)]
    exact Counters.getD_replicate_zero ..

/-- The count that is given for a move is the one that was agreed on. -/
theorem Agree.moveExecutionCount (h : Agree c 0 0 e s)
    (hp : Partition c.program.startAddress c.program.lastInstruction c.blocks)
    (hread : ∀ b ∈ c.blocks, ∀ address, b.1 ≤ address → address ≤ b.2 → address ∉ c.exitPoints →
      (∃ move ∈ c.program.movesAt address, move.isUnconditional = true) → FoundAt c b address)
    (hmove : (c.program.movesAt address)[i]? = some move) :
    e.moveExecutionCount c (c.program.moveNumber address i) address move = some (s.executionCount address i) := by
  have hget : ∀ {table : List Nat} {k : Nat}, k < table.length → table[k]? = some (table.getD k 0) := by
    intro table k hk
    rw [List.getD_eq_getElem?_getD, List.getElem?_eq_getElem hk, Option.getD_some]
  obtain ⟨hfirst, hi⟩ := mem_instruction_of_movesAt (List.getElem?_eq_some_iff.1 hmove).1
  rw [Engine.moveExecutionCount]
  split
  · next hblock =>
    have hin : address - c.program.startAddress < c.program.instructions.length := by
      by_contra hout
      rw [List.getElem?_eq_none (Nat.le_of_not_lt hout)] at hi
      exact absurd hi (Nat.not_lt_zero _)
    obtain ⟨b, hb, hfrom, hto⟩ := hp.covers address hfirst (by rw [Program.lastInstruction]; omega)
    have hcount := h.uncounted address i move hmove hblock.1 hblock.2 b hb hfrom hto
    rw [if_neg (by omega), Nat.add_zero] at hcount
    obtain ⟨hfound, hinTable⟩ :=
      hread b hb address hfrom hto hblock.2 ⟨move, List.mem_of_getElem? hmove, hblock.1⟩
    rw [hfound]
    exact (hget (h.bbLength ▸ hinTable)).trans (congrArg some hcount)
  · next hown =>
    have hcounted : move.isUnconditional = true → address ∈ c.exitPoints := by
      intro huncond
      by_contra hexit
      exact hown ⟨huncond, hexit⟩
    refine (hget ?_).trans (congrArg some (h.counted address i move hmove hcounted))
    rw [h.moveLength]
    exact Program.moveNumber_lt hi

end Instruction

/-- The condition of a run. Where a block of the run ends, and where unguarded moves are, the
counter of the block is found and is in the table, and no block of the run is left at an exit
point after unguarded moves. -/
structure CountsHold (c : Code) (targets : List Nat) : Prop where
  ended : ∀ b ∈ c.blocks, b.1 ∈ targets → CountedAtEnd c b
  read : ∀ b ∈ c.blocks, ∀ address, b.1 ≤ address → address ≤ b.2 → address ∉ c.exitPoints →
    (∃ move ∈ c.program.movesAt address, move.isUnconditional = true) → FoundAt c b address
  leftAfterGuarded : ∀ b ∈ c.blocks, b.1 ∈ targets → LeftAfterGuarded c b

/-- A program that begins at the address zero and is entered there has its counters in the table. -/
theorem foundAt_of_zero {c : Code} {b : Nat × Nat} {address : Nat}
    (hp : Partition c.program.startAddress c.program.lastInstruction c.blocks) (hstart : c.program.startAddress = 0)
    (hentry : c.program.entryAddress = 0) (hb : b ∈ c.blocks) (hfrom : b.1 ≤ address) (hto : address ≤ b.2) :
    FoundAt c b address := by
  have hin := hp.inside b hb
  constructor
  · rw [Code.basicBlockStart, hstart, Nat.sub_zero, lowerBound_bbEnds hp hb hfrom hto]
    rfl
  · omega

/-- The compiled simulator accesses only its tables, and gives every move the count that the
interpretive simulator gives it. -/
def CountsAgree (c : Code) (guards : Nat → Nat → Bool) (targets : List Nat) : Prop :=
  ∃ e, (Engine.new c.program).run c guards targets = some e ∧
    ∀ address i move, (c.program.movesAt address)[i]? = some move →
      e.moveExecutionCount c (c.program.moveNumber address i) address move =
        some ((Interpreter.new.run c guards (targets.flatMap (Engine.addressesOf c))).executionCount address i)

/-- In every run from block to block, to an exit point or not, the counts agree under the condition. -/
theorem counts_agree (c : Code) (maxInstructions delaySlots : Nat) (nodes : List (Nat × Nat))
    (hnodes : Partition c.program.startAddress c.program.lastInstruction nodes)
    (hblocks : c.blocks = findBasicBlocks maxInstructions delaySlots nodes) (guards : Nat → Nat → Bool)
    (targets : List Nat) (htargets : ∀ t ∈ targets, ∃ b ∈ c.blocks, b.1 = t) (hholds : CountsHold c targets) :
    CountsAgree c guards targets := by
  have hp : Partition c.program.startAddress c.program.lastInstruction c.blocks :=
    hblocks ▸ partition_findBasicBlocks hnodes maxInstructions delaySlots
  have hruns : ∀ t ∈ targets, ∃ b ∈ c.blocks, b.1 = t ∧ CountedAtEnd c b ∧ LeftAfterGuarded c b := by
    intro t htarget
    obtain ⟨b, hb, rfl⟩ := htargets t htarget
    exact ⟨b, hb, rfl, hholds.ended b hb htarget, hholds.leftAfterGuarded b hb htarget⟩
  obtain ⟨e, hrun, hagree⟩ := agree_run guards hp targets hruns agree_new
  exact ⟨e, hrun, fun address i move hmove => hagree.moveExecutionCount hp hholds.read hmove⟩

/-- A block of two instructions that the program is left after. -/
def exitAtEnd : Code where
  program := ⟨0, 0, [[⟨true⟩], [⟨false⟩, ⟨true⟩]]⟩
  blocks := findBasicBlocks 100 3 [(0, 1)]
  exitPoints := {1}

theorem counts_agree_exitAtEnd : CountsAgree exitAtEnd (fun _ _ => true) [0] := by
  have hp : Partition exitAtEnd.program.startAddress exitAtEnd.program.lastInstruction [(0, 1)] :=
    partition_single (by decide)
  have hblocks : exitAtEnd.blocks = [(0, 1)] := by decide
  refine counts_agree exitAtEnd 100 3 [(0, 1)] hp rfl (fun _ _ => true) [0] ?_ ⟨?_, ?_, ?_⟩
  · intro t ht
    exact ⟨(0, 1), hblocks ▸ List.mem_cons_self, (List.mem_singleton.1 ht).symm⟩
  · intro b hb _ _
    have hin := (hblocks ▸ hp).inside b hb
    exact foundAt_of_zero (hblocks ▸ hp) rfl rfl hb hin.2.1 (Nat.le_refl _)
  · intro b hb address hfrom hto _ _
    exact foundAt_of_zero (hblocks ▸ hp) rfl rfl hb hfrom hto
  · intro b hb _ exit hexit hlt
    rw [hblocks] at hb
    cases List.mem_singleton.1 hb
    cases Finset.mem_singleton.1 hexit
    exact absurd hlt (Nat.lt_irrefl 1)

/-- A program of one instruction whose address space begins at eight. -/
def laterStart : Code where
  program := ⟨8, 8, [[⟨true⟩]]⟩
  blocks := findBasicBlocks 100 3 [(8, 8)]
  exitPoints := ∅

/-- The table has one counter, and the block is counted at the index eight. -/
theorem not_countsAgree_laterStart : ¬CountsAgree laterStart (fun _ _ => true) [8] := by
  rintro ⟨e, hrun, _⟩
  have hnone : (Engine.new laterStart.program).run laterStart (fun _ _ => true) [8] = none := by decide
  cases hnone.symm.trans hrun

end Tce.CompiledSimulation
