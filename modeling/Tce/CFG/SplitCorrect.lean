import Mathlib.Algebra.Order.BigOperators.Group.List
import Mathlib.Algebra.Order.Ring.Nat
import Tce.CFG.SplitChains

/-!
# Blocks after splitting

When splitting leaves no call in the middle of a block, and no reference into one.
-/

namespace Tce.CFG.ControlFlowGraph

variable {A : Type} [LinearOrder A] {split : List Instruction → Nat → Nat → Option Nat} {erase : Erase}
  {allocate : A → A} {g g' : ControlFlowGraph A} {k : A → Nat} {left : List A} {b n x : A} {i : Nat}

/-! ## Steps -/

/-- What holds of the graph and the blocks left, in a state that is no exception. -/
def Holds (P : ControlFlowGraph A → List A → (A → Nat) → Prop) : State A → Prop
  | .ok (g', left) => ∃ k, P g' left k
  | .error _ => False

theorem findSplit_of_readable {bb : BasicBlock} (h : bb.instructions ≠ [] → bb.startAddress = 0) :
    findSplit split bb (List.range bb.instructionCount) = .ok (splitIndex split bb.instructions) := by
  by_cases hnil : bb.instructions = []
  · simp [BasicBlock.instructionCount, hnil, findSplit, splitIndex]
  · exact findSplit_range (h hnil)

/-- The blocks that are left. In a chain a block before the last one is not split again. -/
structure Left (split : List Instruction → Nat → Nat → Option Nat) (allocate : A → A) (g g' : ControlFlowGraph A)
    (left : List A) (k : A → Nat) : Prop where
  nodup : left.Nodup
  mem : ∀ x ∈ left, x ∈ g'.nodes
  inner : ∀ b ∈ g.nodes, ∀ i < k b, allocate^[i] b ∈ left →
    splitIndex split (g'.basicBlock (allocate^[i] b)).instructions = none

/-- The first block is not split, or it is the last one of its chain. -/
theorem handleFirst_cases (erase : Erase) (h : Reached split allocate g g' k) (hleft : Left split allocate g g' (x :: left) k) :
    (splitIndex split (g'.basicBlock x).instructions = none ∧
      handleFirst split erase allocate (.ok (g', x :: left)) = .ok (g', erase.erase (x :: left) x)) ∨
    ∃ b ∈ g.nodes, x = allocate^[k b] b ∧ ∃ index, splitIndex split (g'.basicBlock x).instructions = some index ∧
      handleFirst split erase allocate (.ok (g', x :: left)) = .ok (splitLast g' allocate k b index,
        erase.erase ((x :: left).orderedInsert (· ≤ ·) (allocate^[k b + 1] b)) x) := by
  have hfind : findSplit split (g'.basicBlock x) (List.range (g'.basicBlock x).instructionCount) =
      .ok (splitIndex split (g'.basicBlock x).instructions) :=
    findSplit_of_readable (h.readable x (hleft.mem x (by simp)))
  cases hs : splitIndex split (g'.basicBlock x).instructions with
  | none => exact .inl ⟨rfl, by simp only [handleFirst, hfind, hs]⟩
  | some index =>
    obtain ⟨b, hb, i, hi, rfl⟩ := h.into.mem.1 (hleft.mem x (by simp))
    have hlast : i = k b := by
      by_contra hne
      have := hleft.inner b hb i (by omega) (by simp)
      rw [this] at hs
      cases hs
    subst hlast
    refine .inr ⟨b, hb, rfl, index, rfl, ?_⟩
    simp only [handleFirst, hfind, hs, splitLast, Function.iterate_succ_apply']

/-! ## Runs -/

theorem handleAll_result {P : ControlFlowGraph A → List A → (A → Nat) → Prop}
    (hstep : ∀ s, blocksLeft s = true → Holds P s → Holds P (handleFirst split erase allocate s))
    (hstart : P g (g.nodes.insertionSort (· ≤ ·)) k) {fuel : Nat}
    (h : handleAll split erase allocate fuel g = some (.ok g')) : ∃ k, P g' [] k := by
  obtain ⟨s, hs, heq⟩ := Option.map_eq_some_iff.1 h
  have hinit : Holds P (.ok (g, g.nodes.insertionSort (· ≤ ·))) := ⟨k, hstart⟩
  have hholds : Holds P s := WhileLoop.invariant_of_run hstep hinit hs
  have hexit := (WhileLoop.exit_of_run hs).2
  match s, heq, hholds, hexit with
  | .ok (_, []), heq, hholds, _ =>
    obtain rfl := Except.ok.inj heq
    exact hholds

/-- A loop that keeps a property ends without an exception, when the blocks that can be made are limited. -/
theorem exists_result {P : ControlFlowGraph A → List A → (A → Nat) → Prop}
    (hstep : ∀ s, blocksLeft s = true → Holds P s → Holds P (handleFirst split erase allocate s))
    (hstart : P g (g.nodes.insertionSort (· ≤ ·)) k) (measure : State A → Nat)
    (hmeasure : ∀ s, blocksLeft s = true → Holds P s → measure (handleFirst split erase allocate s) < measure s) :
    ∃ fuel g', handleAll split erase allocate fuel g = some (.ok g') ∧ ∃ k, P g' [] k := by
  have hinit : Holds P (.ok (g, g.nodes.insertionSort (· ≤ ·))) := ⟨k, hstart⟩
  obtain ⟨fuel, hends⟩ := WhileLoop.ends_of_measure measure hstep hmeasure hinit
  obtain ⟨s, hs⟩ := Option.isSome_iff_exists.1 hends
  have hholds : Holds P s := WhileLoop.invariant_of_run hstep hinit hs
  match s, hs, hholds with
  | .ok (g', rest), hs, hholds =>
    have hall : handleAll split erase allocate fuel g = some (.ok g') := by simp [handleAll, hs, Except.map]
    exact ⟨fuel, g', hall, handleAll_result hstep hstart hall⟩

/-! ## Exceptions -/

/-- A block that is not at the address 0 is not read. -/
theorem readable_of_result {fuel : Nat} (ha : g.Allocates allocate) (h : handleAll split erase allocate fuel g = some (.ok g'))
    (hb : b ∈ g.nodes) (hne : (g.basicBlock b).instructions ≠ []) : (g.basicBlock b).startAddress = 0 := by
  by_contra hstart
  obtain ⟨s, hs, heq⟩ := Option.map_eq_some_iff.1 h
  -- the block is left as it was until it is looked at
  have hkept : ∀ g' left, s = .ok (g', left) → b ∈ left ∧ g'.basicBlock b = g.basicBlock b := by
    let kept (s : State A) : Prop := ∀ g' left, s = .ok (g', left) → b ∈ left ∧ g'.basicBlock b = g.basicBlock b
    suffices kept s from this
    refine WhileLoop.invariant_of_run ?_ ?_ hs
    · rintro (fault | ⟨g₀, _ | ⟨x, left₀⟩⟩) hleft (hinv : kept _) g₁ left₁ hnext
      · cases hleft
      · cases hleft
      · obtain ⟨hmem, hblock⟩ := hinv _ _ rfl
        by_cases hx : x = b
        · subst hx
          rw [← hblock] at hne hstart
          simp only [handleFirst, findSplit_error hstart hne] at hnext
          cases hnext
        · have hb₀ : b ∈ left₀ := by simpa [Ne.symm hx] using hmem
          simp only [handleFirst] at hnext
          split at hnext
          · cases hnext
          · obtain ⟨rfl, rfl⟩ := Prod.mk.inj (Except.ok.inj hnext)
            refine ⟨?_, hblock⟩
            cases erase <;> simp [Erase.erase, hb₀]
          · obtain ⟨rfl, rfl⟩ := Prod.mk.inj (Except.ok.inj hnext)
            have hnew : b ≠ allocate x := fun heq => ha.fresh x (heq ▸ hb)
            refine ⟨?_, by simp [splitBasicBlockAtIndex, Function.update_of_ne (Ne.symm hx),
              Function.update_of_ne hnew, hblock]⟩
            cases erase with
            | begin =>
              simp only [Erase.erase, List.orderedInsert_cons]
              split <;> simp [hb₀]
            | block =>
              simp only [Erase.erase]
              refine (List.mem_erase_of_ne (Ne.symm hx)).2 ((List.mem_orderedInsert ..).2 (.inr ?_))
              simp [hb₀]
    · intro g₁ left₁ hstart
      obtain ⟨rfl, rfl⟩ := Prod.mk.inj (Except.ok.inj hstart)
      exact ⟨(List.mem_insertionSort _).2 hb, rfl⟩
  have hexit := (WhileLoop.exit_of_run hs).2
  cases s with
  | error fault => cases heq
  | ok ended =>
    obtain ⟨g₁, left₁⟩ := ended
    cases left₁ with
    | nil => exact absurd (hkept _ _ rfl).1 List.not_mem_nil
    | cons x left₁ => cases hexit

/-! ## The blocks that are left -/

omit [LinearOrder A] in
theorem SplitInto.start (g : ControlFlowGraph A) : SplitInto allocate g g fun _ => 0 where
  nodes := by simp [chain]
  instructions b _ := by simp [chain]
  edges := by
    have hid : g.edges.map (fromLast allocate fun _ => 0) = g.edges :=
      (List.map_congr_left fun _ _ => rfl).trans (List.map_id _)
    have hcalls : (g.nodes.flatMap fun b => callEdges allocate b 0) = [] := by simp [callEdges]
    rw [hid, hcalls, List.append_nil]

omit [LinearOrder A] in
theorem Reached.start (hzero : ∀ b ∈ g.nodes, (g.basicBlock b).instructions ≠ [] → (g.basicBlock b).startAddress = 0) :
    Reached split allocate g g fun _ => 0 :=
  ⟨.start g, fun b _ pieces hp => by simpa using hp, hzero⟩

theorem Left.start (hg : g.WellFormed) : Left split allocate g g (g.nodes.insertionSort (· ≤ ·)) fun _ => 0 where
  nodup := (List.perm_insertionSort _ _).nodup_iff.2 hg.nodup
  mem _ hx := (List.mem_insertionSort _).1 hx
  inner _ _ i hi := absurd hi (Nat.not_lt_zero i)

theorem erase_none (x : A) (left : List A) : erase.erase (x :: left) x = left := by
  cases erase <;> simp [Erase.erase]

/-- The blocks that are left after the first one, which is split. -/
structure NextLeft (left : List A) (x new : A) (left' : List A) : Prop where
  nodup : left'.Nodup
  mem : ∀ y ∈ left', y = new ∨ y = x ∨ y ∈ left
  kept : ∀ y ∈ left, y ∈ left'
  length : left'.length = left.length + 1

theorem nextLeft (erase : Erase) {new : A} (hnodup : (x :: left).Nodup) (hnew : new ∉ x :: left) :
    NextLeft left x new (erase.erase ((x :: left).orderedInsert (· ≤ ·) new) x) := by
  have hins : ((x :: left).orderedInsert (· ≤ ·) new).Nodup :=
    (List.perm_orderedInsert _ _ _).nodup_iff.2 (List.nodup_cons.2 ⟨hnew, hnodup⟩)
  have hlength : ((x :: left).orderedInsert (· ≤ ·) new).length = left.length + 2 := by
    rw [List.orderedInsert_length, List.length_cons]
  cases erase with
  | begin =>
    refine ⟨hins.tail, fun y hy => ?_, fun y hy => ?_, by rw [Erase.erase, List.length_tail, hlength]; rfl⟩
    · simpa using (List.mem_orderedInsert ..).1 (List.mem_of_mem_tail hy)
    · simp only [Erase.erase, List.orderedInsert_cons]
      split <;> simp [hy]
  | block =>
    refine ⟨hins.erase _, fun y hy => ?_, fun y hy => ?_, ?_⟩
    · simpa using (List.mem_orderedInsert ..).1 (List.mem_of_mem_erase hy)
    · have hne : y ≠ x := fun heq => (List.nodup_cons.1 hnodup).1 (heq ▸ hy)
      exact (List.mem_erase_of_ne hne).2 ((List.mem_orderedInsert ..).2 (.inr (by simp [hy])))
    · have hx : x ∈ (x :: left).orderedInsert (· ≤ ·) new := (List.mem_orderedInsert ..).2 (.inr (by simp))
      rw [Erase.erase, List.length_erase_of_mem hx, hlength]
      rfl

section Next
variable {left' : List A} {index : Nat} (ha : g.Allocates allocate) (hb : b ∈ g.nodes)

omit [LinearOrder A] in
theorem Left.tail (hleft : Left split allocate g g' (x :: left) k) : Left split allocate g g' left k where
  nodup := (List.nodup_cons.1 hleft.nodup).2
  mem y hy := hleft.mem y (by simp [hy])
  inner a ha i hi hmem := hleft.inner a ha i hi (by simp [hmem])

include ha hb

omit [LinearOrder A] in
theorem Left.new_notMem (h : Reached split allocate g g' k) (hleft : Left split allocate g g' (allocate^[k b] b :: left) k) :
    allocate^[k b + 1] b ∉ allocate^[k b] b :: left := fun hmem => h.into.new_notMem ha hb (hleft.mem _ hmem)

/-- The block that is split is not looked at again, or not split again. -/
theorem Left.next (hleft : Left split allocate g g' (allocate^[k b] b :: left) k)
    (hnext : NextLeft left (allocate^[k b] b) (allocate^[k b + 1] b) left')
    (hagain : allocate^[k b] b ∈ left' →
      splitIndex split ((g'.basicBlock (allocate^[k b] b)).instructions.take index) = none) :
    Left split allocate g (splitLast g' allocate k b index) left' (Function.update k b (k b + 1)) where
  nodup := hnext.nodup
  mem y hy := by
    simp only [splitBasicBlockAtIndex, List.mem_append, List.mem_singleton]
    rcases hnext.mem y hy with rfl | rfl | hy
    · exact .inr rfl
    · exact .inl (hleft.mem _ (by simp))
    · exact .inl (hleft.mem y (by simp [hy]))
  inner a hmem i hi hin := by
    by_cases hlast : a = b ∧ i = k b
    · obtain ⟨rfl, rfl⟩ := hlast
      rw [basicBlock_last]
      exact hagain hin
    · have hlt : i < k a := by
        by_cases hab : a = b
        · subst hab
          rw [Function.update_self] at hi
          have : i ≠ k a := fun heq => hlast ⟨rfl, heq⟩
          omega
        · rwa [Function.update_of_ne hab] at hi
      have hne : ∀ j, k b ≤ j → allocate^[i] a ≠ allocate^[j] b := fun j hj heq => by
        obtain ⟨rfl, rfl⟩ := ha.unique hmem hb heq
        omega
      rw [basicBlock_other (hne _ (Nat.le_refl _)) (hne _ (Nat.le_succ _))]
      refine hleft.inner a hmem i hlt ?_
      rcases hnext.mem _ hin with heq | heq | hin
      · exact absurd heq (hne _ (Nat.le_succ _))
      · exact absurd heq (hne _ (Nat.le_refl _))
      · simp [hin]

end Next

/-! ## Termination -/

omit [LinearOrder A] in
/-- No more blocks are made than there are instructions. -/
theorem Reached.length_le (hcuts : Cuts split) (h : Reached split allocate g g' k) :
    g'.nodes.length ≤ (g.nodes.map fun b => (g.basicBlock b).instructions.length + 1).sum := by
  have hk : ∀ b ∈ g.nodes, k b + 1 ≤ (g.basicBlock b).instructions.length + 1 := by
    intro b hb
    obtain ⟨pieces, hp⟩ := exists_pieces hcuts (g'.basicBlock (allocate^[k b] b)).instructions
    have hpos := hp.length_pos
    have hle := (h.pieces b hb _ hp).length_le hcuts
    simp only [List.length_append, List.length_map, List.length_range] at hle
    omega
  rw [h.into.nodes.length_eq, List.length_flatMap]
  simp only [chain, List.length_map, List.length_range]
  exact List.sum_le_sum hk

/-- Two for each block that can still be made, and one for each that is left. -/
def work (g : ControlFlowGraph A) : State A → Nat
  | .ok (g', left) =>
    2 * ((g.nodes.map fun b => (g.basicBlock b).instructions.length + 1).sum - g'.nodes.length) + left.length
  | .error _ => 0

theorem work_lt (hcuts : Cuts split) {index : Nat} {left' : List A} {y : A} {k' : A → Nat}
    (h : Reached split allocate g (splitLast g' allocate k b index) k') (hnext : NextLeft left x y left') :
    work g (.ok (splitLast g' allocate k b index, left')) < work g (.ok (g', x :: left)) := by
  have hle := h.length_le hcuts
  have hlength := hnext.length
  simp only [work, splitBasicBlockAtIndex, List.length_append, List.length_cons, List.length_nil] at hle ⊢
  omega

/-! ## Rounds -/

/-- How far the graph is split, with what else is known of it and of the blocks that are left. -/
structure Progress (split : List Instruction → Nat → Nat → Option Nat) (allocate : A → A) (g : ControlFlowGraph A)
    (Q : ControlFlowGraph A → List A → (A → Nat) → Prop) (g' : ControlFlowGraph A) (left : List A) (k : A → Nat) : Prop where
  reached : Reached split allocate g g' k
  rest : Left split allocate g g' left k
  known : Q g' left k

/-- What is known is kept by a round that splits no block, and by one that splits the last block of a chain. -/
structure Keeps (split : List Instruction → Nat → Nat → Option Nat) (erase : Erase) (allocate : A → A)
    (g : ControlFlowGraph A) (Q : ControlFlowGraph A → List A → (A → Nat) → Prop) : Prop where
  whole : ∀ g' x left k, Progress split allocate g Q g' (x :: left) k →
    splitIndex split (g'.basicBlock x).instructions = none → Q g' left k
  cut : ∀ g' left k, ∀ b ∈ g.nodes, ∀ index, Progress split allocate g Q g' (allocate^[k b] b :: left) k →
    splitIndex split (g'.basicBlock (allocate^[k b] b)).instructions = some index →
    ∀ left', left' = erase.erase ((allocate^[k b] b :: left).orderedInsert (· ≤ ·) (allocate^[k b + 1] b)) (allocate^[k b] b) →
    (allocate^[k b] b ∈ left' → splitIndex split ((g'.basicBlock (allocate^[k b] b)).instructions.take index) = none) ∧
      Q (splitLast g' allocate k b index) left' (Function.update k b (k b + 1))

section Rounds
variable {Q : ControlFlowGraph A → List A → (A → Nat) → Prop} (hg : g.WellFormed) (ha : g.Allocates allocate)
  (hcuts : Cuts split) (hkeeps : Keeps split erase allocate g Q)

include hg ha hkeeps

/-- A round goes on to a state of which the same is known, and comes nearer to the end. -/
theorem handleFirst_progress (h : Progress split allocate g Q g' (x :: left) k) (hcuts : Cuts split) :
    ∃ g₁ left₁ k₁, handleFirst split erase allocate (.ok (g', x :: left)) = .ok (g₁, left₁) ∧
      Progress split allocate g Q g₁ left₁ k₁ ∧ work g (.ok (g₁, left₁)) < work g (.ok (g', x :: left)) := by
  rcases handleFirst_cases erase h.reached h.rest with ⟨hnone, hround⟩ | ⟨b, hb, rfl, index, hindex, hround⟩
  · rw [erase_none] at hround
    refine ⟨g', left, k, hround, ⟨h.reached, h.rest.tail, hkeeps.whole g' x left k h hnone⟩, ?_⟩
    simp [work]
  · have hleft := nextLeft erase h.rest.nodup (h.rest.new_notMem ha hb h.reached)
    obtain ⟨hagain, hknown⟩ := hkeeps.cut g' left k b hb index h hindex _ rfl
    have hreached := h.reached.next hg ha hb hindex
    exact ⟨_, _, _, hround, ⟨hreached, h.rest.next ha hb hleft hagain, hknown⟩, work_lt hcuts hreached hleft⟩

include hcuts

theorem handleFirst_holds (s : State A) (hleft : blocksLeft s = true) (h : Holds (Progress split allocate g Q) s) :
    Holds (Progress split allocate g Q) (handleFirst split erase allocate s) ∧
      work g (handleFirst split erase allocate s) < work g s := by
  match s, hleft, h with
  | .ok (g', x :: left), _, h =>
    obtain ⟨k, h⟩ := h
    obtain ⟨g₁, left₁, k₁, hround, hprogress, hwork⟩ := handleFirst_progress hg ha hkeeps h hcuts
    rw [hround]
    exact ⟨⟨k₁, hprogress⟩, hwork⟩

theorem progress_of_result (hstart : Progress split allocate g Q g (g.nodes.insertionSort (· ≤ ·)) k) {fuel : Nat}
    (h : handleAll split erase allocate fuel g = some (.ok g')) : ∃ k, Progress split allocate g Q g' [] k :=
  handleAll_result (fun s hleft hs => (handleFirst_holds hg ha hcuts hkeeps s hleft hs).1) hstart h

theorem result_of_progress (hstart : Progress split allocate g Q g (g.nodes.insertionSort (· ≤ ·)) k) :
    ∃ fuel g', handleAll split erase allocate fuel g = some (.ok g') ∧ ∃ k, Progress split allocate g Q g' [] k :=
  exists_result (fun s hleft hs => (handleFirst_holds hg ha hcuts hkeeps s hleft hs).1) hstart (work g)
    fun s hleft hs => (handleFirst_holds hg ha hcuts hkeeps s hleft hs).2

end Rounds

end Tce.CFG.ControlFlowGraph
