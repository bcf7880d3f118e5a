import Mathlib.Data.Fin.VecNotation
import Tce.Selector.ReadyMoveNodeGroupList

/-!
# Selection of moves

`CriticalPathBBMoveNodeSelector` selects moves top down, when their
predecessors are scheduled, and `BUMoveNodeSelector` bottom up. Both give every
move to the client, in an order that respects the dependences.
-/

namespace Tce.Selector

open DDG (DataDependenceGraph Edge)

namespace BasicBlockDDG
variable {N O : Type} [DecidableEq N] [DecidableEq O]

/-- A dependence inside an operation that does not keep its moves from being
scheduled together: from an operand to a result, or between moves of one kind. -/
def intraOperation (tail head : DDG.MoveNode O) : Bool :=
  tail.isDestinationOperation && head.isSourceOperation && tail.destinationOperation == head.sourceOperation ||
    tail.isSourceOperation && head.isSourceOperation && tail.sourceOperation == head.sourceOperation ||
    tail.isDestinationOperation && head.isDestinationOperation &&
      tail.destinationOperation == head.destinationOperation

def predecessorsReady (b : BasicBlockDDG N O) (scheduled : N → Bool) (v : N) : Bool :=
  (b.inEdges v).all fun e => e.isBackEdge || intraOperation (b.node e.tail) (b.node v) || scheduled e.tail

def successorsReady (b : BasicBlockDDG N O) (scheduled : N → Bool) (v : N) : Bool :=
  (b.outEdges v).all fun e => e.isBackEdge || intraOperation (b.node v) (b.node e.head) || scheduled e.head

def unscheduledMoves (b : BasicBlockDDG N O) (scheduled : N → Bool) : List N := b.nodes.filter fun v => !scheduled v

/-- Control flow moves are ready when only such are left. -/
def criticalPathBBMoveNodeSelector (b : BasicBlockDDG N O) : SelectorKind N O where
  isReadyToBeScheduled scheduled v :=
    (!(b.isControlFlowMove v && 1 < (b.unscheduledMoves scheduled).length) ||
      (b.unscheduledMoves scheduled).all b.isControlFlowMove) && b.predecessorsReady scheduled v
  operationMoves operation := b.inputMoves operation ++ b.outputMoves operation
  checksAgain := false
  -- an operation is announced by its first operand alone
  initial := b.nodes.filter fun v =>
    (b.inEdges v).isEmpty && (!(b.node v).isDestinationOperation || b.operationIndex v == 1)
  announced v := b.nodes.filter fun u =>
    (b.outEdges v).any (fun e => e.head = u) && !(b.node u).inSameOperation (b.node v)

/-- Control flow moves are ready, since they are at the end of the block. -/
def buMoveNodeSelector (b : BasicBlockDDG N O) : SelectorKind N O where
  isReadyToBeScheduled scheduled v := b.isControlFlowMove v || b.successorsReady scheduled v
  operationMoves operation := b.outputMoves operation ++ b.inputMoves operation
  checksAgain := true
  initial := b.nodes.filter fun v => (b.outEdges v).isEmpty
  announced v := b.nodes.filter fun u =>
    (b.inEdges v).any (fun e => e.tail = u) && !(b.node u).inSameOperation (b.node v)

/-! ## Basic blocks -/

def SameGroup (b : BasicBlockDDG N O) (u v : N) : Prop :=
  u = v ∨ ∃ operation, b.operation u = some operation ∧ b.operation v = some operation

/-- Dependences with the moves of each operation contracted. -/
def Contracted (b : BasicBlockDDG N O) (u v : N) : Prop :=
  ∃ e ∈ b.edges, e.isBackEdge = false ∧ b.SameGroup e.tail u ∧ b.SameGroup e.head v ∧ ¬ b.SameGroup u v

/-- The graph of a basic block. -/
structure WellFormed (b : BasicBlockDDG N O) : Prop where
  moves : ∀ v ∈ b.nodes, (b.node v).isMove = true
  edges : ∀ e ∈ b.edges, e.tail ∈ b.nodes ∧ e.head ∈ b.nodes
  inputMoves : ∀ operation v, v ∈ b.inputMoves operation ↔ v ∈ b.nodes ∧ (b.node v).destinationOperation = some operation
  outputMoves : ∀ operation v, v ∈ b.outputMoves operation ↔ v ∈ b.nodes ∧ (b.node v).sourceOperation = some operation
  oneOperation : ∀ v ∈ b.nodes, ∀ o o', (b.node v).sourceOperation = some o → (b.node v).destinationOperation = some o' →
    o = o'
  legal : ∀ v ∈ b.nodes, b.operation v = none → b.isLegalMove v = true
  acyclic : Acyclic b.Contracted
  /-- In an operation results depend on operands, and no move depends on itself. -/
  inside : ∀ e ∈ b.edges, e.isBackEdge = false → b.SameGroup e.tail e.head →
    intraOperation (b.node e.tail) (b.node e.head) = true

/-- No other moves depend on control flow moves, or are in an operation with one. -/
structure ControlFlowLast (b : BasicBlockDDG N O) : Prop where
  heads : ∀ e ∈ b.edges, e.isBackEdge = false → b.isControlFlowMove e.tail = true → b.isControlFlowMove e.head = true
  operations : ∀ u ∈ b.nodes, ∀ v ∈ b.nodes, b.SameGroup u v → b.isControlFlowMove u = b.isControlFlowMove v

/-- Nothing but moves of its own operation depends on a control flow move. -/
def ControlFlowEnds (b : BasicBlockDDG N O) : Prop :=
  ∀ e ∈ b.edges, e.isBackEdge = false → b.isControlFlowMove e.tail = true → b.SameGroup e.tail e.head

section groups
variable {b : BasicBlockDDG N O}

omit [DecidableEq N] [DecidableEq O] in
theorem sameGroup_iff {u v : N} :
    b.SameGroup u v ↔ u = v ∨ (b.operation u).isSome = true ∧ b.operation u = b.operation v := by
  apply or_congr_right
  constructor
  · rintro ⟨o, hu, hv⟩
    rw [hu, hv]
    exact ⟨rfl, rfl⟩
  · rintro ⟨hsome, heq⟩
    obtain ⟨o, ho⟩ := Option.isSome_iff_exists.1 hsome
    exact ⟨o, ho, heq ▸ ho⟩

instance (u v : N) : Decidable (b.SameGroup u v) := decidable_of_iff _ sameGroup_iff.symm

instance (u v : N) : Decidable (b.Contracted u v) := by
  unfold Contracted
  infer_instance

omit [DecidableEq N] [DecidableEq O] in
theorem SameGroup.symm {u v : N} (h : b.SameGroup u v) : b.SameGroup v u :=
  h.imp Eq.symm fun ⟨o, hu, hv⟩ => ⟨o, hv, hu⟩

omit [DecidableEq N] [DecidableEq O] in
theorem SameGroup.trans {u v w : N} (h : b.SameGroup u v) (h' : b.SameGroup v w) : b.SameGroup u w := by
  cases h with
  | inl heq => exact heq ▸ h'
  | inr h =>
    obtain ⟨o, hu, hv⟩ := h
    cases h' with
    | inl heq => exact .inr ⟨o, hu, heq ▸ hv⟩
    | inr h' =>
      obtain ⟨o', hv', hw⟩ := h'
      rw [hv] at hv'
      exact .inr ⟨o, hu, Option.some.inj hv' ▸ hw⟩

omit [DecidableEq N] in
/-- A move is of the operation that it writes an operand or reads a result of. -/
theorem operation_eq_some (hb : b.WellFormed) {v : N} (hv : v ∈ b.nodes) (operation : O) :
    b.operation v = some operation ↔
      (b.node v).destinationOperation = some operation ∨ (b.node v).sourceOperation = some operation := by
  have hone := hb.oneOperation v hv
  unfold BasicBlockDDG.operation DDG.MoveNode.isDestinationOperation DDG.MoveNode.isSourceOperation
  rw [hb.moves v hv, Bool.true_and, Bool.true_and]
  cases hd : (b.node v).destinationOperation with
  | some o' =>
    simp only [Option.isSome_some, if_true]
    constructor
    · exact .inl
    · rintro (h | h)
      · exact h
      · rw [hone operation o' h hd]
  | none =>
    rw [if_neg (by simp)]
    cases (b.node v).sourceOperation <;> simp

variable {k : SelectorKind N O}

omit [DecidableEq N] in
theorem mem_group (hb : b.WellFormed)
    (hk : ∀ o v, v ∈ k.operationMoves o ↔ v ∈ b.inputMoves o ∨ v ∈ b.outputMoves o) {v : N} (hv : v ∈ b.nodes) (u : N) :
    u ∈ k.group b v ↔ u ∈ b.nodes ∧ b.SameGroup u v := by
  unfold SelectorKind.group SameGroup
  cases ho : b.operation v with
  | none =>
    dsimp only
    rw [List.mem_singleton]
    constructor
    · exact fun heq => ⟨heq ▸ hv, .inl heq⟩
    · rintro ⟨_, heq | ⟨o, _, hnone⟩⟩
      · exact heq
      · cases hnone
  | some o =>
    dsimp only
    rw [hk, hb.inputMoves, hb.outputMoves, ← and_or_left]
    constructor
    · rintro ⟨hu, hop⟩
      exact ⟨hu, .inr ⟨o, (operation_eq_some hb hu o).2 hop, rfl⟩⟩
    · rintro ⟨hu, heq | ⟨o', hu', ho'⟩⟩
      · subst heq
        exact ⟨hu, (operation_eq_some hb hu o).1 ho⟩
      · rw [Option.some.inj ho']
        exact ⟨hu, (operation_eq_some hb hu o').1 hu'⟩

omit [DecidableEq N] in
theorem group_eq (hb : b.WellFormed)
    (hk : ∀ o v, v ∈ k.operationMoves o ↔ v ∈ b.inputMoves o ∨ v ∈ b.outputMoves o) {v : N} (hv : v ∈ b.nodes) {u : N}
    (hu : u ∈ k.group b v) : k.group b u = k.group b v := by
  obtain ⟨_, heq | ⟨o, hu, hv⟩⟩ := (mem_group hb hk hv u).1 hu
  · rw [heq]
  · unfold SelectorKind.group
    rw [hu, hv]

end groups

/-! ## Both selectors are lawful -/

section lawful
variable {b : BasicBlockDDG N O}

theorem topDown_moves (o : O) (v : N) :
    v ∈ b.criticalPathBBMoveNodeSelector.operationMoves o ↔ v ∈ b.inputMoves o ∨ v ∈ b.outputMoves o :=
  List.mem_append

theorem bottomUp_moves (o : O) (v : N) :
    v ∈ b.buMoveNodeSelector.operationMoves o ↔ v ∈ b.inputMoves o ∨ v ∈ b.outputMoves o :=
  List.mem_append.trans or_comm

theorem predecessorsReady_iff {scheduled : N → Bool} {v : N} : b.predecessorsReady scheduled v = true ↔
    ∀ e ∈ b.edges, e.head = v → e.isBackEdge = false →
      intraOperation (b.node e.tail) (b.node v) = true ∨ scheduled e.tail = true := by
  unfold predecessorsReady DataDependenceGraph.inEdges
  rw [List.all_eq_true]
  constructor
  · intro h e he hhead hback
    have := h e (List.mem_filter.2 ⟨he, by simpa using hhead⟩)
    rwa [hback, Bool.false_or, Bool.or_eq_true] at this
  · intro h e he
    obtain ⟨he, hhead⟩ := List.mem_filter.1 he
    cases hback : e.isBackEdge with
    | true => rw [Bool.true_or, Bool.true_or]
    | false =>
      rw [Bool.false_or, Bool.or_eq_true]
      exact h e he (by simpa using hhead) hback

theorem successorsReady_iff {scheduled : N → Bool} {v : N} : b.successorsReady scheduled v = true ↔
    ∀ e ∈ b.edges, e.tail = v → e.isBackEdge = false →
      intraOperation (b.node v) (b.node e.head) = true ∨ scheduled e.head = true := by
  unfold successorsReady DataDependenceGraph.outEdges
  rw [List.all_eq_true]
  constructor
  · intro h e he htail hback
    have := h e (List.mem_filter.2 ⟨he, by simpa using htail⟩)
    rwa [hback, Bool.false_or, Bool.or_eq_true] at this
  · intro h e he
    obtain ⟨he, htail⟩ := List.mem_filter.1 he
    cases hback : e.isBackEdge with
    | true => rw [Bool.true_or, Bool.true_or]
    | false =>
      rw [Bool.false_or, Bool.or_eq_true]
      exact h e he (by simpa using htail) hback

/-- A move is ready top down after its predecessors, and one of control flow after all others. -/
theorem topDown_ready_iff {scheduled : N → Bool} {v : N} :
    b.criticalPathBBMoveNodeSelector.isReadyToBeScheduled scheduled v = true ↔
      (b.isControlFlowMove v = true → 1 < (b.unscheduledMoves scheduled).length →
        ∀ u ∈ b.nodes, scheduled u = false → b.isControlFlowMove u = true) ∧ b.predecessorsReady scheduled v = true := by
  unfold criticalPathBBMoveNodeSelector
  dsimp only
  rw [Bool.and_eq_true]
  apply and_congr_left'
  rw [Bool.or_eq_true, Bool.not_eq_true', Bool.and_eq_false_iff, List.all_eq_true]
  constructor
  · rintro ((hcf | hcount) | hall) hcf' hcount' u hu hleft
    · rw [hcf'] at hcf
      cases hcf
    · exact absurd hcount' (by simpa using hcount)
    · exact hall u (List.mem_filter.2 ⟨hu, by simpa using hleft⟩)
  · intro h
    by_cases hcf : b.isControlFlowMove v = true
    · by_cases hcount : 1 < (b.unscheduledMoves scheduled).length
      · refine .inr fun u hu => ?_
        obtain ⟨hu, hleft⟩ := List.mem_filter.1 hu
        exact h hcf hcount u hu (by simpa using hleft)
      · exact .inl (.inr (by simpa using hcount))
    · exact .inl (.inl (by simpa using hcf))

theorem topDown_lawful (hb : b.WellFormed) (hcf : b.ControlFlowLast) : b.criticalPathBBMoveNodeSelector.Lawful b where
  mem_group v hv := (mem_group hb topDown_moves hv v).2 ⟨hv, .inl rfl⟩
  mem_nodes v hv u hu := ((mem_group hb topDown_moves hv u).1 hu).1
  group_eq v hv u hu := group_eq hb topDown_moves hv hu
  legal := hb.legal
  initial v hv := (List.mem_filter.1 hv).1
  announced v _ u hu := (List.mem_filter.1 hu).1
  mono {scheduled scheduled'} hmono v hready := by
    rw [topDown_ready_iff, predecessorsReady_iff] at hready ⊢
    obtain ⟨hflow, hpred⟩ := hready
    have hleft : ∀ u, scheduled' u = false → scheduled u = false := fun u hu => by
      by_contra htrue
      rw [hmono u (by simpa using htrue)] at hu
      cases hu
    refine ⟨fun hv hcount u hu hfalse => ?_, fun e he hhead hback => (hpred e he hhead hback).imp_right (hmono _)⟩
    have hcount' : (b.unscheduledMoves scheduled').length ≤ (b.unscheduledMoves scheduled).length := by
      unfold unscheduledMoves
      rw [← List.countP_eq_length_filter, ← List.countP_eq_length_filter]
      exact List.countP_mono_left fun u _ h => by simpa using hleft u (by simpa using h)
    exact hflow hv (by omega) u hu (hleft u hfalse)
  progress {scheduled} hwhole := by
    rintro ⟨w, hw, hfalse⟩
    -- the first move that is left, where control flow moves come after the others
    let left := b.nodes.filter fun v => !scheduled v &&
      ((b.nodes.all fun u => scheduled u || b.isControlFlowMove u) || !b.isControlFlowMove v)
    have hleft : left ≠ [] := by
      by_cases hall : (b.nodes.all fun u => scheduled u || b.isControlFlowMove u) = true
      · exact List.ne_nil_of_mem (List.mem_filter.2 ⟨hw, by simp only [hfalse, hall]; rfl⟩)
      · obtain ⟨u, hu, hother⟩ : ∃ u ∈ b.nodes, (scheduled u || b.isControlFlowMove u) = false := by
          rw [List.all_eq_true] at hall
          by_contra hnone
          refine hall fun u hu => ?_
          by_contra htrue
          exact hnone ⟨u, hu, by simpa using htrue⟩
        rw [Bool.or_eq_false_iff] at hother
        exact List.ne_nil_of_mem (List.mem_filter.2 ⟨hu, by simp [hother.1, hother.2]⟩)
    obtain ⟨v, hv, hfirst⟩ := hb.acyclic.exists_first hleft
    obtain ⟨hv, hleftv⟩ := List.mem_filter.1 hv
    rw [Bool.and_eq_true, Bool.not_eq_true', Bool.or_eq_true, Bool.not_eq_true'] at hleftv
    obtain ⟨hfalse, hflow⟩ := hleftv
    refine ⟨v, hv, hfalse, fun m hm => ?_⟩
    obtain ⟨hm, hsame⟩ := (mem_group hb topDown_moves hv m).1 hm
    have hcfm := hcf.operations m hm v hv hsame
    rw [topDown_ready_iff, predecessorsReady_iff]
    refine ⟨fun htrue _ u hu hleft => ?_, fun e he hhead hback => ?_⟩
    · rw [hcfm] at htrue
      rw [htrue] at hflow
      have hall := List.all_eq_true.1 (hflow.resolve_right (by simp)) u hu
      rwa [hleft, Bool.false_or] at hall
    · subst hhead
      by_cases hinside : b.SameGroup e.tail e.head
      · exact .inl (hb.inside e he hback hinside)
      · refine .inr ?_
        by_contra hunscheduled
        have htail : e.tail ∈ left := by
          refine List.mem_filter.2 ⟨(hb.edges e he).1, ?_⟩
          rw [Bool.and_eq_true, Bool.not_eq_true', Bool.or_eq_true, Bool.not_eq_true']
          refine ⟨by simpa using hunscheduled, hflow.imp_right fun hother => ?_⟩
          by_contra htrue
          have := hcf.heads e he hback (by simpa using htrue)
          rw [hcfm, hother] at this
          cases this
        exact hfirst e.tail htail ⟨e, he, hback, .inl rfl, hsame, fun h => hinside (h.trans hsame.symm)⟩

theorem bottomUp_lawful (hb : b.WellFormed) : b.buMoveNodeSelector.Lawful b where
  mem_group v hv := (mem_group hb bottomUp_moves hv v).2 ⟨hv, .inl rfl⟩
  mem_nodes v hv u hu := ((mem_group hb bottomUp_moves hv u).1 hu).1
  group_eq v hv u hu := group_eq hb bottomUp_moves hv hu
  legal := hb.legal
  initial v hv := (List.mem_filter.1 hv).1
  announced v _ u hu := (List.mem_filter.1 hu).1
  mono {scheduled scheduled'} hmono v hready := by
    unfold buMoveNodeSelector at hready ⊢
    dsimp only at hready ⊢
    rw [Bool.or_eq_true, successorsReady_iff] at hready ⊢
    exact hready.imp_right fun hsucc e he htail hback => (hsucc e he htail hback).imp_right (hmono _)
  progress {scheduled} hwhole := by
    rintro ⟨w, hw, hfalse⟩
    have hleft : b.unscheduledMoves scheduled ≠ [] :=
      List.ne_nil_of_mem (List.mem_filter.2 ⟨hw, by simpa using hfalse⟩)
    obtain ⟨v, hv, hfirst⟩ := hb.acyclic.flip.exists_first hleft
    obtain ⟨hv, hfalse⟩ := List.mem_filter.1 hv
    refine ⟨v, hv, by simpa using hfalse, fun m hm => ?_⟩
    obtain ⟨hm, hsame⟩ := (mem_group hb bottomUp_moves hv m).1 hm
    unfold buMoveNodeSelector
    dsimp only
    rw [Bool.or_eq_true, successorsReady_iff]
    refine .inr fun e he htail hback => ?_
    subst htail
    by_cases hinside : b.SameGroup e.tail e.head
    · exact .inl (hb.inside e he hback hinside)
    · refine .inr ?_
      by_contra hunscheduled
      have hhead : e.head ∈ b.unscheduledMoves scheduled :=
        List.mem_filter.2 ⟨(hb.edges e he).2, by simpa using hunscheduled⟩
      exact hfirst e.head hhead ⟨e, he, hback, hsame, .inl rfl, fun h => hinside (hsame.trans h)⟩

end lawful

/-! ## Runs of the client -/

/-- A group that the client is given when the moves before it are scheduled. -/
structure LegalGroup (b : BasicBlockDDG N O) (before : N → Bool) (moves : List N) : Prop where
  nonempty : moves ≠ []
  alive : ∀ m ∈ moves, m ∈ b.nodes
  unscheduled : ∀ m ∈ moves, before m = false
  whole : ∀ m ∈ moves, ∀ u ∈ b.nodes, b.SameGroup u m → before u = false → u ∈ moves

/-- The client runs with a selector. -/
def run (b : BasicBlockDDG N O) (k : SelectorKind N O) (choice : Nat → List (List N) → Nat) :
    Except (Fault N) (SelectorState N × List ((N → Bool) × List N)) := do
  let s ← k.start b fun _ => false
  k.schedule b choice (b.nodes.length + 1) s

section runs
variable {b : BasicBlockDDG N O}

omit [DecidableEq O] in
theorem run_spec {k : SelectorKind N O} (h : k.Lawful b) (choice : Nat → List (List N) → Nat) :
    ∃ s groups, b.run k choice = .ok (s, groups) ∧ (∀ v ∈ b.nodes, s.scheduled v = true) ∧
      ∀ g ∈ groups, g.2 ≠ [] ∧ k.Candidate b g.1 g.2 := by
  have hstart : k.Inv b ⟨fun _ => false, [], 0⟩ := ⟨fun _ _ _ _ => rfl, fun moves hm => by cases hm⟩
  obtain ⟨s, hok, hs, hsame, -⟩ := SelectorKind.foldlM_mightBeReady h _ hstart h.initial
  have hcount : b.nodes.countP (fun v => !s.scheduled v) < b.nodes.length + 1 :=
    Nat.lt_succ_of_le List.countP_le_length
  obtain ⟨s', groups, hok', hall, hgroups⟩ := SelectorKind.schedule_spec h choice hs hcount
  refine ⟨s', groups, ?_, hall, hgroups⟩
  unfold run SelectorKind.start
  rw [hok]
  exact hok'

omit [DecidableEq N] in
theorem legalGroup_of_candidate (hb : b.WellFormed) {k : SelectorKind N O}
    (hk : ∀ o v, v ∈ k.operationMoves o ↔ v ∈ b.inputMoves o ∨ v ∈ b.outputMoves o) {before : N → Bool}
    {moves : List N} (hne : moves ≠ []) (h : k.Candidate b before moves) : b.LegalGroup before moves := by
  obtain ⟨v, hv, rfl⟩ := h.group
  refine ⟨hne, fun m hm => ((mem_group hb hk hv m).1 hm).1, h.unscheduled, fun m hm u hu hsame _ => ?_⟩
  exact (mem_group hb hk hv u).2 ⟨hu, hsame.trans ((mem_group hb hk hv m).1 hm).2⟩

omit [DecidableEq N] in
theorem sameGroup_of_intraOperation (hb : b.WellFormed) {u v : N} (hu : u ∈ b.nodes) (hv : v ∈ b.nodes)
    (h : intraOperation (b.node u) (b.node v) = true) : b.SameGroup u v := by
  unfold intraOperation DDG.MoveNode.isDestinationOperation DDG.MoveNode.isSourceOperation at h
  simp only [Bool.or_eq_true, Bool.and_eq_true, beq_iff_eq] at h
  have hsame {o o' : Option O} (ho : o.isSome = true) (heq : o = o')
      (hou : ∀ x, o = some x → b.operation u = some x) (hov : ∀ x, o' = some x → b.operation v = some x) :
      b.SameGroup u v := by
    obtain ⟨x, hx⟩ := Option.isSome_iff_exists.1 ho
    exact .inr ⟨x, hou x hx, hov x (heq ▸ hx)⟩
  have hdst {w : N} (hw : w ∈ b.nodes) (x : O) (hx : (b.node w).destinationOperation = some x) :
      b.operation w = some x := (operation_eq_some hb hw x).2 (.inl hx)
  have hsrc {w : N} (hw : w ∈ b.nodes) (x : O) (hx : (b.node w).sourceOperation = some x) :
      b.operation w = some x := (operation_eq_some hb hw x).2 (.inr hx)
  rcases h with (⟨⟨⟨_, hsome⟩, _⟩, heq⟩ | ⟨⟨⟨_, hsome⟩, _⟩, heq⟩) | ⟨⟨⟨_, hsome⟩, _⟩, heq⟩
  · exact hsame hsome heq (hdst hu) (hsrc hv)
  · exact hsame hsome heq (hsrc hu) (hsrc hv)
  · exact hsame hsome heq (hdst hu) (hdst hv)

/-- Both selectors give all moves to the client, whichever groups are on top of
their lists. Each group has the unscheduled moves of its operation; top down it
comes after its predecessors, and control flow moves come last; bottom up it
comes after its successors. -/
theorem selection_complete (hb : b.WellFormed) (choice : Nat → List (List N) → Nat) :
    (b.ControlFlowLast → ∃ s groups, b.run b.criticalPathBBMoveNodeSelector choice = .ok (s, groups) ∧
      (∀ v ∈ b.nodes, s.scheduled v = true) ∧
      ∀ g ∈ groups, b.LegalGroup g.1 g.2 ∧
        (∀ e ∈ b.edges, e.isBackEdge = false → e.head ∈ g.2 → g.1 e.tail = true ∨ e.tail ∈ g.2) ∧
        ∀ m ∈ g.2, b.isControlFlowMove m = true → ∀ u ∈ b.nodes, g.1 u = false → b.isControlFlowMove u = true) ∧
    (b.ControlFlowEnds → ∃ s groups, b.run b.buMoveNodeSelector choice = .ok (s, groups) ∧
      (∀ v ∈ b.nodes, s.scheduled v = true) ∧
      ∀ g ∈ groups, b.LegalGroup g.1 g.2 ∧
        ∀ e ∈ b.edges, e.isBackEdge = false → e.tail ∈ g.2 → g.1 e.head = true ∨ e.head ∈ g.2) := by
  constructor
  · intro hcf
    obtain ⟨s, groups, hok, hall, hgroups⟩ := run_spec (topDown_lawful hb hcf) choice
    refine ⟨s, groups, hok, hall, fun g hg => ?_⟩
    obtain ⟨hne, hcandidate⟩ := hgroups g hg
    refine ⟨legalGroup_of_candidate hb topDown_moves hne hcandidate, fun e he hback hhead => ?_,
      fun m hm hflow u hu hleft => ?_⟩
    · obtain ⟨v, hv, hgroup⟩ := hcandidate.group
      rw [hgroup] at hhead ⊢
      have hready := (topDown_ready_iff.1 (hcandidate.ready e.head (hgroup ▸ hhead))).2
      refine (predecessorsReady_iff.1 hready e he rfl hback).symm.imp_right fun hintra => ?_
      have hsame := sameGroup_of_intraOperation hb (hb.edges e he).1 (hb.edges e he).2 hintra
      exact (mem_group hb topDown_moves hv _).2
        ⟨(hb.edges e he).1, hsame.trans ((mem_group hb topDown_moves hv _).1 hhead).2⟩
    · by_cases hcount : 1 < (b.unscheduledMoves g.1).length
      · exact (topDown_ready_iff.1 (hcandidate.ready m hm)).1 hflow hcount u hu hleft
      · -- the move is the only one left
        obtain ⟨v, hv, hgroup⟩ := hcandidate.group
        have hmleft : m ∈ b.unscheduledMoves g.1 :=
          List.mem_filter.2 ⟨((mem_group hb topDown_moves hv m).1 (hgroup ▸ hm)).1, by simpa using hcandidate.unscheduled m hm⟩
        have huleft : u ∈ b.unscheduledMoves g.1 := List.mem_filter.2 ⟨hu, by simpa using hleft⟩
        obtain ⟨w, hw⟩ := List.length_eq_one_iff.1
          (Nat.le_antisymm (Nat.not_lt.1 hcount) (List.length_pos_of_mem hmleft))
        rw [hw, List.mem_singleton] at hmleft huleft
        rw [huleft, ← hmleft]
        exact hflow
  · intro hcf
    obtain ⟨s, groups, hok, hall, hgroups⟩ := run_spec (bottomUp_lawful hb) choice
    refine ⟨s, groups, hok, hall, fun g hg => ?_⟩
    obtain ⟨hne, hcandidate⟩ := hgroups g hg
    refine ⟨legalGroup_of_candidate hb bottomUp_moves hne hcandidate, fun e he hback htail => ?_⟩
    obtain ⟨v, hv, hgroup⟩ := hcandidate.group
    rw [hgroup] at htail ⊢
    have hinside (hsame : b.SameGroup e.tail e.head) : e.head ∈ b.buMoveNodeSelector.group b v :=
      (mem_group hb bottomUp_moves hv _).2
        ⟨(hb.edges e he).2, hsame.symm.trans ((mem_group hb bottomUp_moves hv _).1 htail).2⟩
    have hready := hcandidate.ready e.tail (hgroup ▸ htail)
    unfold buMoveNodeSelector at hready
    dsimp only at hready
    rw [Bool.or_eq_true] at hready
    cases hready with
    | inl hflow => exact .inr (hinside (hcf e he hback hflow))
    | inr hsucc =>
      refine (successorsReady_iff.1 hsucc e he rfl hback).symm.imp_right fun hintra => hinside ?_
      exact sameGroup_of_intraOperation hb (hb.edges e he).1 (hb.edges e he).2 hintra

end runs

/-! ## Small blocks -/

/-- Register moves, jumps and moves of one operation. -/
inductive MoveSort where
  | copy
  | toRA
  | jump
  | operand
  | result
  deriving DecidableEq, Repr

/-- Moves of some sorts with dependences between them; a jump is an operation of its own. -/
def small {n : Nat} (sorts : Fin n → MoveSort) (dependences : List (Fin n × Fin n)) :
    BasicBlockDDG (Fin n) (Option (Fin n)) where
  node v :=
    { isMove := true
      guard := .unconditional
      sourceOperation := if sorts v = .result then some none else none
      destinationOperation := if sorts v = .operand then some none else if sorts v = .jump then some (some v) else none
      cycle := none }
  edges := dependences.map fun d =>
    { edgeReason := .EDGE_REGISTER
      dependenceType := .DEP_RAW
      data := "RF.1"
      guardUse := false
      certainAlias := false
      tailPseudo := false
      headPseudo := false
      loopDepth := 0
      tail := d.1
      head := d.2 }
  inputMoves operation := (List.finRange n).filter fun v =>
    (if sorts v = .operand then some none else if sorts v = .jump then some (some v) else none) = some operation
  outputMoves operation := (List.finRange n).filter fun v =>
    (if sorts v = .result then some none else none) = some operation
  machine := none
  nodes := List.finRange n
  isControlFlowMove v := sorts v == .jump
  source v := if sorts v = .toRA then .constant else .variable
  destination v := if sorts v = .toRA then .RA else .variable
  operationIndex _ := 1

theorem small_wellFormed {n : Nat} {sorts : Fin n → MoveSort} {dependences : List (Fin n × Fin n)} (rank : Fin n → Nat)
    (hlegal : ∀ v, sorts v ≠ .toRA)
    (hrank : ∀ u v, (small sorts dependences).Contracted u v → rank u < rank v)
    (hinside : ∀ e ∈ (small sorts dependences).edges, (small sorts dependences).SameGroup e.tail e.head →
      intraOperation ((small sorts dependences).node e.tail) ((small sorts dependences).node e.head) = true) :
    (small sorts dependences).WellFormed where
  moves _ _ := rfl
  edges e _ := ⟨List.mem_finRange e.tail, List.mem_finRange e.head⟩
  inputMoves operation v := List.mem_filter.trans (and_congr_right fun _ => decide_eq_true_iff)
  outputMoves operation v := List.mem_filter.trans (and_congr_right fun _ => decide_eq_true_iff)
  oneOperation v _ o o' hs hd := by
    dsimp only [small] at hs hd
    split at hs
    · next hresult =>
      rw [hresult] at hd
      cases hd
    · cases hs
  legal v _ _ := by
    dsimp only [small, isLegalMove]
    simp only [if_neg (hlegal v)]
    rfl
  acyclic := acyclic_of_rank rank hrank
  inside e he _ := hinside e he

/-- An operand, the result, and a jump after it. -/
def jumpLast : BasicBlockDDG (Fin 3) (Option (Fin 3)) := small ![.operand, .result, .jump] [(0, 1), (1, 2)]

theorem jumpLast_wellFormed : jumpLast.WellFormed :=
  small_wellFormed ![0, 0, 1] (by decide) (by decide) (by decide)

theorem selection_jumpLast :
    (∃ s groups, jumpLast.run jumpLast.criticalPathBBMoveNodeSelector (fun _ _ => 0) = .ok (s, groups) ∧
      (∀ v ∈ jumpLast.nodes, s.scheduled v = true) ∧
      ∀ g ∈ groups, jumpLast.LegalGroup g.1 g.2 ∧
        (∀ e ∈ jumpLast.edges, e.isBackEdge = false → e.head ∈ g.2 → g.1 e.tail = true ∨ e.tail ∈ g.2) ∧
        ∀ m ∈ g.2, jumpLast.isControlFlowMove m = true →
          ∀ u ∈ jumpLast.nodes, g.1 u = false → jumpLast.isControlFlowMove u = true) ∧
    ∃ s groups, jumpLast.run jumpLast.buMoveNodeSelector (fun _ _ => 0) = .ok (s, groups) ∧
      (∀ v ∈ jumpLast.nodes, s.scheduled v = true) ∧
      ∀ g ∈ groups, jumpLast.LegalGroup g.1 g.2 ∧
        ∀ e ∈ jumpLast.edges, e.isBackEdge = false → e.tail ∈ g.2 → g.1 e.head = true ∨ e.head ∈ g.2 :=
  ⟨(selection_complete jumpLast_wellFormed _).1 ⟨by decide, by decide⟩,
    (selection_complete jumpLast_wellFormed _).2 (by unfold ControlFlowEnds; decide)⟩

/-- A move before a jump that it depends on, a result before an operand of its
operation, a constant for the return address, and a jump before its successors. -/
theorem selection_incomplete :
    (Acyclic (small ![.jump, .copy] [(0, 1)]).Contracted ∧
      ((small ![.jump, .copy] [(0, 1)]).run (small ![.jump, .copy] [(0, 1)]).criticalPathBBMoveNodeSelector
        fun _ _ => 0).map (fun r => (r.2.length, r.1.scheduled 1)) = .ok (0, false)) ∧
    (Acyclic (small ![.result, .operand] [(0, 1)]).Contracted ∧
      ((small ![.result, .operand] [(0, 1)]).run (small ![.result, .operand] [(0, 1)]).criticalPathBBMoveNodeSelector
        fun _ _ => 0).map (fun r => (r.2.length, r.1.scheduled 1)) = .ok (0, false)) ∧
    (Acyclic (small ![.toRA] []).Contracted ∧
      ((small ![.toRA] []).run (small ![.toRA] []).criticalPathBBMoveNodeSelector fun _ _ => 0).map
        (fun r => r.2.length) = .error (.IllegalProgram 0)) ∧
    Acyclic (small ![.jump, .copy, .copy] [(0, 1), (0, 2)]).Contracted ∧
      ((small ![.jump, .copy, .copy] [(0, 1), (0, 2)]).run
        (small ![.jump, .copy, .copy] [(0, 1), (0, 2)]).buMoveNodeSelector fun _ _ => 0).map
        (fun r => r.2.map (·.2)) = .ok [[2], [0], [1]] := by
  refine ⟨⟨acyclic_of_rank ![0, 1] (by decide), rfl⟩, ⟨acyclic_of_rank ![0, 1] (by decide), rfl⟩,
    ⟨acyclic_of_rank ![0] (by decide), rfl⟩, acyclic_of_rank ![0, 1, 1] (by decide), rfl⟩

end BasicBlockDDG

end Tce.Selector
