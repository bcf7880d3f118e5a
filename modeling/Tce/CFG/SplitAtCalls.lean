import Tce.CFG.SplitCorrect

/-!
# Blocks without calls in the middle

When splitting leaves no call in the middle of a block, and no reference into one.
-/

namespace Tce.CFG.ControlFlowGraph

variable {A : Type} [LinearOrder A] {split : List Instruction → Nat → Nat → Option Nat} {erase : Erase}
  {allocate : A → A} {g g' : ControlFlowGraph A} {k : A → Nat} {left : List A} {b n x : A}

/-! ## All blocks are looked at -/

/-- The last block of a chain is left, or it is not split again. -/
def Looked (split : List Instruction → Nat → Nat → Option Nat) (allocate : A → A) (g g' : ControlFlowGraph A)
    (left : List A) (k : A → Nat) : Prop :=
  ∀ b ∈ g.nodes, allocate^[k b] b ∉ left → splitIndex split (g'.basicBlock (allocate^[k b] b)).instructions = none

/-- Addresses go up along the chains, as far as there are calls in the middle of the blocks. -/
def CallsAscend (allocate : A → A) (g : ControlFlowGraph A) : Prop :=
  ∀ b ∈ g.nodes, ∀ i, i + 1 < middleCalls (g.basicBlock b).instructions → allocate^[i] b < allocate^[i + 1] b

theorem Looked.start : Looked split allocate g g (g.nodes.insertionSort (· ≤ ·)) fun _ => 0 :=
  fun _ hb hnot => absurd ((List.mem_insertionSort _).2 hb) hnot

omit [LinearOrder A] in
theorem Looked.whole (h : Looked split allocate g g' (x :: left) k)
    (hnone : splitIndex split (g'.basicBlock x).instructions = none) : Looked split allocate g g' left k := by
  intro b hb hnot
  by_cases hx : allocate^[k b] b = x
  · rwa [hx]
  · exact h b hb (by simp [hx, hnot])

section Cut
variable {index : Nat} {left' : List A} (ha : g.Allocates allocate) (hb : b ∈ g.nodes)

include ha hb

omit [LinearOrder A] in
theorem basicBlock_last_other [LinearOrder A] {a : A} (hmem : a ∈ g.nodes) (hne : a ≠ b) :
    (splitLast g' allocate k b index).basicBlock (allocate^[k a] a) = g'.basicBlock (allocate^[k a] a) :=
  basicBlock_iterate ha hb hmem fun heq => absurd heq hne

theorem Looked.cut (h : Looked split allocate g g' (allocate^[k b] b :: left) k)
    (hnext : NextLeft left (allocate^[k b] b) (allocate^[k b + 1] b) left')
    (hnew : allocate^[k b + 1] b ∉ left' →
      splitIndex split ((g'.basicBlock (allocate^[k b] b)).instructions.drop index) = none) :
    Looked split allocate g (splitLast g' allocate k b index) left' (Function.update k b (k b + 1)) := by
  intro a hmem hnot
  by_cases hne : a = b
  · subst hne
    rw [Function.update_self] at hnot ⊢
    rw [basicBlock_new ha hb]
    exact hnew hnot
  · rw [Function.update_of_ne hne] at hnot ⊢
    rw [basicBlock_last_other ha hb hmem hne]
    have hlast : allocate^[k a] a ≠ allocate^[k b] b := fun heq => hne (ha.unique hmem hb heq).1
    have hleft : allocate^[k a] a ∉ left := fun hin => hnot (hnext.kept _ hin)
    exact h a hmem (by simp [hlast, hleft])

end Cut

/-! ## Splitting at calls -/

section Calls
variable (ha : g.Allocates allocate)

/-- What is left after the first block, which is split, when the first of the set is erased. -/
theorem erase_begin_le {y : A} (hle : y ≤ x) : Erase.begin.erase ((x :: left).orderedInsert (· ≤ ·) y) x = x :: left := by
  simp [Erase.erase, hle]

theorem mem_erase_begin {y : A} (hlt : x < y) : y ∈ Erase.begin.erase ((x :: left).orderedInsert (· ≤ ·) y) x := by
  simp [Erase.erase, not_le.2 hlt]

omit [LinearOrder A] in
/-- The block that a call is split off last has no other in the middle. -/
theorem Reached.splitIndex_drop (h : Reached callSplit allocate g g' k) (hb : b ∈ g.nodes) {index : Nat}
    (hindex : splitIndex callSplit (g'.basicBlock (allocate^[k b] b)).instructions = some index)
    (hcalls : middleCalls (g.basicBlock b).instructions ≤ k b + 1) :
    splitIndex callSplit ((g'.basicBlock (allocate^[k b] b)).instructions.drop index) = none := by
  obtain ⟨pieces, hp⟩ := exists_pieces cuts_callSplit ((g'.basicBlock (allocate^[k b] b)).instructions.drop index)
  have hlength := (pieces_callSplit (h.pieces b hb _ (.cut hindex hp))).1
  simp only [List.length_append, List.length_map, List.length_range, List.length_cons] at hlength
  have hpos := (pieces_callSplit hp).1
  exact splitIndex_callSplit_none.2 (middleCalls_eq_zero.1 (by omega))

include ha

theorem keeps_looked_calls (hascend : g.CallsAscend allocate) :
    Keeps callSplit .begin allocate g (Looked callSplit allocate g) where
  whole _ _ _ _ h hnone := h.known.whole hnone
  cut g' left k b hb index h hindex left' hleft := by
    refine ⟨fun _ => splitIndex_callSplit_take hindex, ?_⟩
    have hnext := nextLeft .begin h.rest.nodup (h.rest.new_notMem ha hb h.reached)
    rw [← hleft] at hnext
    refine h.known.cut ha hb hnext fun hnot => h.reached.splitIndex_drop hb hindex ?_
    -- the new block was erased, so its address is the lower one
    by_contra hmiddle
    exact hnot (hleft ▸ mem_erase_begin (hascend b hb (k b) (by omega)))

/-- Where addresses go down along a chain, there the chain ends, and its last block is not left. -/
def Stops (allocate : A → A) (g _g' : ControlFlowGraph A) (left : List A) (k : A → Nat) : Prop :=
  ∀ b ∈ g.nodes, ∀ i < k b, ¬ allocate^[i] b < allocate^[i + 1] b → i + 1 = k b ∧ allocate^[i + 1] b ∉ left

theorem keeps_stops : Keeps callSplit .begin allocate g (Stops allocate g) where
  whole g' x left k h _ b hb i hi hnot := by
    obtain ⟨hlast, hleft⟩ := h.known b hb i hi hnot
    exact ⟨hlast, fun hmem => hleft (List.mem_cons_of_mem _ hmem)⟩
  cut g' left k b hb index h hindex left' hleft := by
    refine ⟨fun _ => splitIndex_callSplit_take hindex, fun a hmem i hi hnot => ?_⟩
    have hnew := h.rest.new_notMem ha hb h.reached
    by_cases hne : a = b
    · subst hne
      rw [Function.update_self] at hi ⊢
      by_cases hik : i = k a
      · subst hik
        rw [hleft, erase_begin_le (not_lt.1 hnot)]
        exact ⟨rfl, hnew⟩
      · -- the chain has ended there
        obtain ⟨hlast, hout⟩ := h.known a hmem i (by omega) hnot
        rw [hlast] at hout
        simp at hout
    · rw [Function.update_of_ne hne] at hi ⊢
      obtain ⟨hlast, hout⟩ := h.known a hmem i hi hnot
      refine ⟨hlast, fun hin => ?_⟩
      have hnext := nextLeft .begin h.rest.nodup hnew
      rw [← hleft] at hnext
      rcases hnext.mem _ hin with heq | heq | hin
      · exact hne (ha.unique hmem hb heq).1
      · exact hne (ha.unique hmem hb heq).1
      · exact hout (List.mem_cons_of_mem _ hin)

end Calls

/-! ## Splitting at calls and references -/

theorem keeps_looked_references (ha : g.Allocates allocate) :
    Keeps split .block allocate g (Looked split allocate g) where
  whole _ _ _ _ h hnone := h.known.whole hnone
  cut g' left k b hb index h hindex left' hleft := by
    have hnew := h.rest.new_notMem ha hb h.reached
    have hnext := nextLeft .block h.rest.nodup hnew
    have hins : ((allocate^[k b] b :: left).orderedInsert (· ≤ ·) (allocate^[k b + 1] b)).Nodup :=
      (List.perm_orderedInsert _ _ _).nodup_iff.2 (List.nodup_cons.2 ⟨hnew, h.rest.nodup⟩)
    have hne : allocate^[k b + 1] b ≠ allocate^[k b] b := fun heq => hnew (by simp [heq])
    rw [← hleft] at hnext
    refine ⟨fun hmem => ?_, h.known.cut ha hb hnext fun hnot => ?_⟩
    · rw [hleft] at hmem
      exact absurd hmem hins.not_mem_erase
    · refine absurd ?_ hnot
      rw [hleft]
      exact (List.mem_erase_of_ne hne).2 ((List.mem_orderedInsert ..).2 (.inl rfl))

/-! ## All pieces -/

omit [LinearOrder A] in
/-- When no block is left, the blocks of a chain are the pieces of its first one. -/
theorem Reached.pieces_of_none (h : Reached split allocate g g' k) (hb : b ∈ g.nodes)
    (hnone : splitIndex split (g'.basicBlock (allocate^[k b] b)).instructions = none) :
    Pieces split (g.basicBlock b).instructions
      ((List.range (k b + 1)).map fun i => (g'.basicBlock (allocate^[i] b)).instructions) := by
  rw [List.range_succ, List.map_append]
  exact h.pieces b hb _ (.whole hnone)

omit [LinearOrder A] in
theorem forall_nodes_of_pieces (h : Reached split allocate g g' k) {P : List Instruction → Prop} :
    (∀ n ∈ g'.nodes, P (g'.basicBlock n).instructions) ↔
      ∀ b ∈ g.nodes, ∀ p ∈ (List.range (k b + 1)).map fun i => (g'.basicBlock (allocate^[i] b)).instructions, P p := by
  constructor
  · intro hall b hb p hp
    obtain ⟨i, hi, rfl⟩ := List.mem_map.1 hp
    exact hall _ (h.into.mem_iterate hb (Nat.lt_succ_iff.1 (List.mem_range.1 hi)))
  · intro hall n hn
    obtain ⟨b, hb, i, hi, rfl⟩ := h.into.mem.1 hn
    exact hall b hb _ (List.mem_map.2 ⟨i, List.mem_range.2 (Nat.lt_succ_of_le hi), rfl⟩)

omit [LinearOrder A] in
theorem CallsLast.of_pieces (h : Reached callSplit allocate g g' k)
    (hnone : ∀ b ∈ g.nodes, splitIndex callSplit (g'.basicBlock (allocate^[k b] b)).instructions = none) :
    ∀ n ∈ g'.nodes, CallsLast (g'.basicBlock n).instructions :=
  (forall_nodes_of_pieces h).2 fun b hb => (pieces_callSplit (h.pieces_of_none hb (hnone b hb))).2

/-! ## When splitting does what it should -/

/-- Blocks with instructions are at the address 0. -/
def BlocksAtZero (g : ControlFlowGraph A) : Prop :=
  ∀ b ∈ g.nodes, (g.basicBlock b).instructions ≠ [] → (g.basicBlock b).startAddress = 0

/-- The blocks became chains, with calls at the end of each block only. -/
def CallsSplit (allocate : A → A) (g g' : ControlFlowGraph A) : Prop :=
  (∃ k, SplitInto allocate g g' k) ∧ ∀ n ∈ g'.nodes, CallsLast (g'.basicBlock n).instructions

/-- Besides, references are to the first instruction of each block only. -/
def CallsAndRefsSplit (allocate : A → A) (g g' : ControlFlowGraph A) : Prop :=
  CallsSplit allocate g g' ∧ ∀ n ∈ g'.nodes, ReferencesFirst (g'.basicBlock n).instructions

section Correct
variable (hg : g.WellFormed) (ha : g.Allocates allocate)

include hg ha

theorem splitBasicBlocksWithCalls_iff :
    (∃ fuel g', splitBasicBlocksWithCalls allocate fuel g = some (.ok g') ∧ CallsSplit allocate g g') ↔
      g.BlocksAtZero ∧ g.CallsAscend allocate := by
  constructor
  · rintro ⟨fuel, g', hresult, -, hcalls⟩
    have hzero : g.BlocksAtZero := fun b hb hne => readable_of_result ha hresult hb hne
    refine ⟨hzero, fun b hb i hi => ?_⟩
    have hstart : Progress callSplit allocate g (Stops allocate g) g (g.nodes.insertionSort (· ≤ ·)) fun _ => 0 :=
      ⟨.start hzero, .start hg, fun _ _ i hi => absurd hi (Nat.not_lt_zero i)⟩
    obtain ⟨k, hend⟩ := progress_of_result hg ha cuts_callSplit (keeps_stops ha) hstart hresult
    have hnone := splitIndex_callSplit_none.2 (hcalls _ (hend.reached.into.mem_iterate hb (Nat.le_refl _)))
    have hlength := (pieces_callSplit (hend.reached.pieces_of_none hb hnone)).1
    rw [List.length_map, List.length_range] at hlength
    -- the chain is longer than up to there
    by_contra hnot
    have := (hend.known b hb i (by omega) hnot).1
    omega
  · rintro ⟨hzero, hascend⟩
    have hstart : Progress callSplit allocate g (Looked callSplit allocate g) g (g.nodes.insertionSort (· ≤ ·))
        fun _ => 0 := ⟨.start hzero, .start hg, .start⟩
    obtain ⟨fuel, g', hresult, k, hend⟩ :=
      result_of_progress hg ha cuts_callSplit (keeps_looked_calls ha hascend) hstart
    exact ⟨fuel, g', hresult, ⟨k, hend.reached.into⟩,
      CallsLast.of_pieces hend.reached fun b hb => hend.known b hb List.not_mem_nil⟩

theorem splitBasicBlocksWithCallsAndRefs_iff :
    (∃ fuel g', splitBasicBlocksWithCallsAndRefs allocate fuel g = some (.ok g') ∧ CallsAndRefsSplit allocate g g') ↔
      g.BlocksAtZero ∧ ∀ b ∈ g.nodes, ¬ ReferredCall (g.basicBlock b).instructions := by
  have hkeeps : Keeps callOrReferenceSplit .block allocate g (Looked callOrReferenceSplit allocate g) :=
    keeps_looked_references ha
  constructor
  · rintro ⟨fuel, g', hresult, -, hrefs⟩
    have hzero : g.BlocksAtZero := fun b hb hne => readable_of_result ha hresult hb hne
    have hstart : Progress callOrReferenceSplit allocate g (Looked callOrReferenceSplit allocate g) g
        (g.nodes.insertionSort (· ≤ ·)) fun _ => 0 := ⟨.start hzero, .start hg, .start⟩
    obtain ⟨k, hend⟩ := progress_of_result hg ha cuts_callOrReferenceSplit hkeeps hstart hresult
    refine ⟨hzero, fun b hb => ?_⟩
    have hpieces := hend.reached.pieces_of_none hb (hend.known b hb List.not_mem_nil)
    exact (pieces_callOrReferenceSplit hpieces).2.1 ((forall_nodes_of_pieces hend.reached).1 hrefs b hb)
  · rintro ⟨hzero, hcalls⟩
    have hstart : Progress callOrReferenceSplit allocate g (Looked callOrReferenceSplit allocate g) g
        (g.nodes.insertionSort (· ≤ ·)) fun _ => 0 := ⟨.start hzero, .start hg, .start⟩
    obtain ⟨fuel, g', hresult, k, hend⟩ := result_of_progress hg ha cuts_callOrReferenceSplit hkeeps hstart
    have hpieces := fun b hb => pieces_callOrReferenceSplit
      (hend.reached.pieces_of_none hb (hend.known b hb List.not_mem_nil))
    exact ⟨fuel, g', hresult, ⟨⟨k, hend.reached.into⟩,
      (forall_nodes_of_pieces hend.reached).2 fun b hb => (hpieces b hb).1⟩,
      (forall_nodes_of_pieces hend.reached).2 fun b hb => (hpieces b hb).2.2 (hcalls b hb)⟩

/-- Calls in the middle of a block are split off when addresses go up, references unless they are to such a call. -/
theorem splitBasicBlocks_correct :
    ((∃ fuel g', splitBasicBlocksWithCalls allocate fuel g = some (.ok g') ∧ CallsSplit allocate g g') ↔
      g.BlocksAtZero ∧ g.CallsAscend allocate) ∧
    ((∃ fuel g', splitBasicBlocksWithCallsAndRefs allocate fuel g = some (.ok g') ∧ CallsAndRefsSplit allocate g g') ↔
      g.BlocksAtZero ∧ ∀ b ∈ g.nodes, ¬ ReferredCall (g.basicBlock b).instructions) :=
  ⟨splitBasicBlocksWithCalls_iff hg ha, splitBasicBlocksWithCallsAndRefs_iff hg ha⟩

end Correct

/-! ## A block with two calls -/

/-- One block at the address 100, in a loop by itself. -/
def loopBlock (instructions : List Instruction) : ControlFlowGraph Nat where
  nodes := [100]
  basicBlock _ := ⟨0, instructions⟩
  edges := [⟨.CFLOW_EDGE_NORMAL, .CFLOW_EDGE_JUMP, true, 100, 100⟩]

theorem loopBlock_wellFormed (instructions : List Instruction) : (loopBlock instructions).WellFormed :=
  ⟨by simp [loopBlock], by simp [loopBlock], by simp [loopBlock]⟩

/-- The first new block is before the block, the next ones are behind it. -/
def before (a : Nat) : Nat := if a = 100 then 50 else a + 101

theorem loopBlock_allocates (instructions : List Instruction) : (loopBlock instructions).Allocates before where
  injective a b h := by
    simp only [before] at h
    split at h <;> split at h <;> omega
  fresh a := by
    simp only [loopBlock, List.mem_singleton, before]
    split <;> omega

def call (name : String) : Instruction := ⟨name, true, false⟩

theorem splitBasicBlocks_correct_twoCalls :
    (∃ fuel g', splitBasicBlocksWithCallsAndRefs before fuel (loopBlock [call "f", call "g", ⟨"add", false, false⟩]) =
      some (.ok g') ∧ CallsAndRefsSplit before (loopBlock [call "f", call "g", ⟨"add", false, false⟩]) g') := by
  refine (splitBasicBlocks_correct (loopBlock_wellFormed _) (loopBlock_allocates _)).2.2 ⟨fun _ _ _ => rfl, ?_⟩
  rintro b - ⟨k, i, j, -, hj, hk, -, -, href⟩
  have hmem : j ∈ [call "f", call "g", ⟨"add", false, false⟩] := List.mem_of_getElem? hj
  simp only [call, List.mem_cons, List.not_mem_nil, or_false] at hmem
  rcases hmem with rfl | rfl | rfl <;> cases href

/-- The block behind the first call is erased before it is looked at. -/
theorem not_splitBasicBlocks_correct :
    ¬ ∀ (g : ControlFlowGraph Nat) (allocate : Nat → Nat), g.WellFormed → g.Allocates allocate →
      (∃ fuel g', splitBasicBlocksWithCalls allocate fuel g = some (.ok g') ∧ CallsSplit allocate g g') ∧
      ∃ fuel g', splitBasicBlocksWithCallsAndRefs allocate fuel g = some (.ok g') ∧ CallsAndRefsSplit allocate g g' := by
  intro h
  obtain ⟨hcalls, -⟩ := h (loopBlock [call "f", call "g", ⟨"add", false, false⟩]) before (loopBlock_wellFormed _)
    (loopBlock_allocates _)
  have hascend := ((splitBasicBlocksWithCalls_iff (loopBlock_wellFormed _) (loopBlock_allocates _)).1 hcalls).2
  exact absurd (hascend 100 (by simp [loopBlock]) 0 (by decide)) (by decide)

end Tce.CFG.ControlFlowGraph
