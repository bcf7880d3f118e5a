import Tce.Selector.MoveNodeGroups

/-!
# The groups of whole blocks

The groups are right exactly when no operations are interleaved and no register copy is
followed by a result that begins an operation.
-/

namespace Tce.Selector.MoveNodeGroupBuilder
variable {moves : List Move} {n : Nat} {move : Move} {s s' : Building}

/-- A register copy, or moves of one operation. -/
def Single (moves : List Move) (g : MoveNodeGroup) : Prop :=
  (∃ i move, g.nodes = [i] ∧ moves[i]? = some move ∧ move.isCopy = true) ∨
    ∃ p, ∀ i ∈ g.nodes, operationOf moves i = some p

/-- The moves so far are in the groups, in their order. -/
def Covers (n : Nat) (s : Building) : Prop := s.mngs.flatMap (·.nodes) ++ s.mng.nodes = List.range n

theorem flatMap_pushNonempty (s : Building) :
    s.pushNonempty.mngs.flatMap (·.nodes) = s.mngs.flatMap (·.nodes) ++ s.mng.nodes := by
  rw [Building.mngs_pushNonempty]
  split
  · next hempty => rw [hempty, List.append_nil]
  · rw [List.flatMap_append, List.flatMap_singleton]

theorem covers_step (h : Covers n s) (hgrouped : Grouped moves n move s s') : Covers (n + 1) s' := by
  unfold Covers at h ⊢
  rw [List.range_succ, ← h]
  unfold Grouped at hgrouped
  split at hgrouped
  · rw [hgrouped.1, hgrouped.2, List.flatMap_append, flatMap_pushNonempty, List.append_nil]
    rfl
  split at hgrouped
  · rw [hgrouped.1, hgrouped.2]
    split
    · rw [List.flatMap_append, List.flatMap_singleton]
    · rw [flatMap_pushNonempty]
  · rw [hgrouped.1, hgrouped.2, List.append_assoc]

/-- The groups before are kept. -/
theorem mem_mngs_step {g : MoveNodeGroup} (hgrouped : Grouped moves n move s s') (hg : g ∈ s.mngs) : g ∈ s'.mngs := by
  have hpush : g ∈ s.pushNonempty.mngs := by
    rw [Building.mngs_pushNonempty]
    split
    · exact hg
    · exact List.mem_append_left _ hg
  unfold Grouped at hgrouped
  split at hgrouped
  · rw [hgrouped.1]
    exact List.mem_append_left _ hpush
  split at hgrouped
  · rw [hgrouped.1]
    split
    · exact List.mem_append_left _ hg
    · exact hpush
  · rw [hgrouped.1]
    exact hg

/-! ## Empty groups -/

/-- A result begins an operation right after a register copy. -/
def BypassAfterCopy (moves : List Move) (i : Nat) : Prop := ∃ copy move, moves[i]? = some copy ∧ copy.isCopy = true ∧
  moves[i + 1]? = some move ∧ move.sourceIsFU = true ∧ destinationOperation moves (i + 1) = some (i + 1)

theorem noBypassAfterCopy_iff : NoBypassAfterCopy moves ↔ ∀ i, ¬BypassAfterCopy moves i := by
  constructor
  · rintro h i ⟨copy, move, hcopy, his, hmove, hsource, hdest⟩
    exact h i copy move hcopy his hmove hsource hdest
  · intro h i copy move hcopy his hmove hsource hdest
    exact h i ⟨copy, move, hcopy, his, hmove, hsource, hdest⟩

/-- After a copy the group is empty, and it is put to the list when a result begins an
operation. -/
structure Empties (moves : List Move) (n : Nat) (s : Building) : Prop where
  afterCopy : ∀ i copy, n = i + 1 → moves[i]? = some copy → copy.isCopy = true → s.mng.nodes = []
  pushed : ∀ i, i + 1 < n → BypassAfterCopy moves i → ∃ g ∈ s.mngs, g.nodes = []

theorem empties_step (h : Empties moves n s) (hmove : moves[n]? = some move) (hgrouped : Grouped moves n move s s') :
    Empties moves (n + 1) s' := by
  constructor
  · intro i copy hi hcopy his
    obtain rfl : n = i := Nat.succ.inj hi
    cases hmove.symm.trans hcopy
    rw [Grouped, if_pos his] at hgrouped
    exact hgrouped.2
  · intro i hi hbypass
    by_cases hlast : i + 1 < n
    · obtain ⟨g, hg, hempty⟩ := h.pushed i hlast hbypass
      exact ⟨g, mem_mngs_step hgrouped hg, hempty⟩
    · obtain ⟨copy, bypass, hcopy, his, hbypassMove, hsource, hdest⟩ := hbypass
      obtain rfl : n = i + 1 := by omega
      cases hmove.symm.trans hbypassMove
      have hnoCopy : move.isCopy = false := by rw [Move.isCopy, hsource, Bool.not_true, Bool.false_and]
      rw [Grouped, hnoCopy, if_neg Bool.false_ne_true, if_pos hdest, if_pos hsource] at hgrouped
      refine ⟨s.mng, ?_, h.afterCopy i copy rfl hcopy his⟩
      rw [hgrouped.1]
      exact List.mem_append_right _ List.mem_cons_self

/-! ## Groups of single operations -/

structure Cut (moves : List Move) (n : Nat) (s : Building) : Prop where
  nonempty : ∀ g ∈ s.mngs, g.nodes ≠ []
  single : ∀ g ∈ s.mngs, Single moves g
  /-- The group is empty, first or after a copy, or has moves of the operation of the last move. -/
  current : s.mng.nodes = [] ∧ (n = 0 ∨ ∃ i copy, n = i + 1 ∧ moves[i]? = some copy ∧ copy.isCopy = true) ∨
    s.mng.nodes ≠ [] ∧ ∃ i p, n = i + 1 ∧ operationOf moves i = some p ∧ ∀ j ∈ s.mng.nodes, operationOf moves j = some p

/-- A move that does not begin its operation goes on with that of the move before it, or
follows a copy. -/
theorem same_operation (hapart : NotInterleaved moves) {i p q : Nat} (hbefore : operationOf moves i = some p)
    (hmove : operationOf moves (i + 1) = some q) (hbegun : destinationOperation moves (i + 1) ≠ some (i + 1)) : p = q := by
  have hle := hapart i (i + 1) p q (Nat.lt_succ_self i) hbefore hmove
  have hbegan : q < i + 1 ∧ destinationOperation moves q = some q := by
    unfold operationOf at hmove
    rcases Option.or_eq_some_iff.1 hmove with hdest | ⟨_, hsource⟩
    · obtain ⟨hle, hself⟩ := destination_began hdest
      refine ⟨Nat.lt_of_le_of_ne hle ?_, hself⟩
      rintro rfl
      exact hbegun hdest
    · exact source_began hsource
  have hself := operationOf_self hbegan.2
  rcases Nat.lt_or_ge q i with hlt | hge
  · have := hapart q i q p hlt hself hbefore
    omega
  · obtain rfl : q = i := by omega
    exact Option.some.inj (hbefore.symm.trans hself)

theorem Cut.pushNonempty (h : Cut moves n s) :
    (∀ g ∈ s.pushNonempty.mngs, g.nodes ≠ []) ∧ ∀ g ∈ s.pushNonempty.mngs, Single moves g := by
  rw [Building.mngs_pushNonempty]
  split
  · exact ⟨h.nonempty, h.single⟩
  · next hfilled =>
    rcases h.current with ⟨hempty, _⟩ | ⟨_, i, p, _, _, hall⟩
    · exact absurd hempty hfilled
    · constructor
      · intro g hg
        rcases List.mem_append.1 hg with hg | hg
        · exact h.nonempty g hg
        · rw [List.mem_singleton.1 hg]
          exact hfilled
      · intro g hg
        rcases List.mem_append.1 hg with hg | hg
        · exact h.single g hg
        · rw [List.mem_singleton.1 hg]
          exact Or.inr ⟨p, hall⟩

theorem cut_step (h : Cut moves n s) (hsequential : Sequential moves) (hapart : NotInterleaved moves)
    (hbypass : NoBypassAfterCopy moves) (hmove : moves[n]? = some move) (hgrouped : Grouped moves n move s s') :
    Cut moves (n + 1) s' := by
  obtain ⟨hnonempty, hsingle⟩ := h.pushNonempty
  have hread : move.sourceIsFU = true → ∃ p, sourceOperation moves n = some p := by
    intro hsource
    rw [sourceOperation_of_move hmove, if_pos hsource]
    exact Option.isSome_iff_exists.1 (hsequential.executed n move hmove hsource)
  unfold Grouped at hgrouped
  split at hgrouped
  · next hcopy =>
    refine ⟨?_, ?_, Or.inl ⟨hgrouped.2, Or.inr ⟨n, move, rfl, hmove, hcopy⟩⟩⟩
    · intro g hg
      rw [hgrouped.1] at hg
      rcases List.mem_append.1 hg with hg | hg
      · exact hnonempty g hg
      · rw [List.mem_singleton.1 hg]
        exact List.cons_ne_nil n []
    · intro g hg
      rw [hgrouped.1] at hg
      rcases List.mem_append.1 hg with hg | hg
      · exact hsingle g hg
      · rw [List.mem_singleton.1 hg]
        exact Or.inl ⟨n, move, rfl, hmove, hcopy⟩
  next hcopy =>
  split at hgrouped
  · next hbegins =>
    have hpushed : s'.mngs = s.pushNonempty.mngs := by
      rw [hgrouped.1]
      split
      · next hsource =>
        -- the group that is pushed without a test has nodes
        have hfilled : s.mng.nodes ≠ [] := by
          rcases h.current with ⟨_, rfl | ⟨i, copy, rfl, hcopy, his⟩⟩ | ⟨hfilled, _⟩
          · obtain ⟨p, hp⟩ := hread hsource
            exact absurd (source_began hp).1 (Nat.not_lt_zero p)
          · exact absurd hbegins (hbypass i copy move hcopy his hmove hsource)
          · exact hfilled
        rw [Building.mngs_pushNonempty, if_neg hfilled]
      · rfl
    rw [← hpushed] at hnonempty hsingle
    refine ⟨hnonempty, hsingle, Or.inr ⟨?_, n, n, rfl, operationOf_self hbegins, ?_⟩⟩
    · rw [hgrouped.2]
      exact List.cons_ne_nil n []
    · intro j hj
      rw [hgrouped.2] at hj
      rw [List.mem_singleton.1 hj]
      exact operationOf_self hbegins
  · next hbegun =>
    obtain ⟨q, hq⟩ : ∃ q, operationOf moves n = some q := by
      unfold operationOf
      cases hdest : destinationOperation moves n with
      | some q => exact ⟨q, rfl⟩
      | none =>
        rw [Option.none_or]
        rw [destinationOperation_of_move hmove] at hdest
        split at hdest
        · cases hdest
        · next hnoDest =>
          apply hread
          simpa [Move.isCopy, hnoDest] using hcopy
    refine ⟨?_, ?_, Or.inr ⟨?_, n, q, rfl, hq, ?_⟩⟩
    · rw [hgrouped.1]
      exact h.nonempty
    · rw [hgrouped.1]
      exact h.single
    · rw [hgrouped.2]
      exact List.append_ne_nil_of_right_ne_nil _ (List.cons_ne_nil n [])
    · intro j hj
      rw [hgrouped.2] at hj
      rcases List.mem_append.1 hj with hold | hnew
      · rcases h.current with ⟨hempty, _⟩ | ⟨_, i, p, rfl, hp, hall⟩
        · rw [hempty] at hold
          cases hold
        · rw [← same_operation hapart hp hq hbegun]
          exact hall j hold
      · rw [List.mem_singleton.1 hnew]
        exact hq

/-! ## Whole blocks -/

/-- All that is known after the first moves. -/
structure Built (moves : List Move) (n : Nat) (s : Building) : Prop where
  follows : Follows moves n s
  covers : Covers n s
  empties : Empties moves n s
  cut : NotInterleaved moves → NoBypassAfterCopy moves → Cut moves n s

theorem built_initial : Built moves 0 Building.initial where
  follows := ⟨fun _ => rfl, fun _ => rfl, rfl, rfl⟩
  covers := rfl
  empties := ⟨fun _ _ h => absurd h (Nat.succ_ne_zero _).symm, fun _ h => absurd h (Nat.not_lt_zero _)⟩
  cut _ _ := ⟨by simp [Building.initial], by simp [Building.initial], Or.inl ⟨rfl, Or.inl rfl⟩⟩

theorem built_run (hsequential : Sequential moves) (hn : n ≤ moves.length) :
    ∃ s, (moves.take n).foldlM Building.buildMove Building.initial = some s ∧ Built moves n s := by
  induction n with
  | zero => exact ⟨Building.initial, rfl, built_initial⟩
  | succ n ih =>
    obtain ⟨s, hs, hbuilt⟩ := ih (Nat.le_of_succ_le hn)
    have hmove : moves[n]? = some moves[n] := List.getElem?_eq_getElem hn
    obtain ⟨s', hs'⟩ := buildMove_isSome hbuilt.follows (hsequential.executed n _ hmove)
    obtain ⟨hfollows, hgrouped⟩ := buildMove_spec hbuilt.follows hmove hs'
    refine ⟨s', ?_, hfollows, covers_step hbuilt.covers hgrouped, empties_step hbuilt.empties hmove hgrouped, ?_⟩
    · rw [List.take_succ_eq_append_getElem hn, List.foldlM_append, hs]
      exact (congrArg (fun o => Option.bind o some) hs').trans rfl
    · intro hapart hbypass
      exact cut_step (hbuilt.cut hapart hbypass) hsequential hapart hbypass hmove hgrouped

/-- The operations of the moves of two groups are in the order of the groups. -/
def InOrder (moves : List Move) (i j : Nat) : Prop :=
  ∀ p q, operationOf moves i = some p → operationOf moves j = some q → p ≤ q

theorem notInterleaved_iff : NotInterleaved moves ↔ (List.range moves.length).Pairwise (InOrder moves) := by
  have hlength : ∀ {i p}, operationOf moves i = some p → i < moves.length := by
    intro i p h
    by_contra hout
    have hnone : moves[i]? = none := List.getElem?_eq_none (Nat.le_of_not_lt hout)
    simp [operationOf, destinationOperation, sourceOperation, hnone] at h
  constructor
  · intro h
    exact List.pairwise_lt_range.imp fun hlt p q hp hq => h _ _ p q hlt hp hq
  · intro h i j p q hlt hp hq
    have hij := List.pairwise_iff_getElem.1 h i j (by simpa using hlength hp) (by simpa using hlength hq) hlt
    simp only [List.getElem_range] at hij
    exact hij p q hp hq

theorem pairwise_of_single {g : MoveNodeGroup} (h : Single moves g) : g.nodes.Pairwise (InOrder moves) := by
  rcases h with ⟨i, move, hnodes, _⟩ | ⟨p, hall⟩
  · rw [hnodes]
    exact List.pairwise_singleton _ i
  · apply List.pairwise_of_forall_mem_list
    intro i hi j hj p' q' hp hq
    cases (hall i hi).symm.trans hp
    cases (hall j hj).symm.trans hq
    exact Nat.le_refl p

/-- Groups of single operations in their order are those of a block that does not interleave them. -/
theorem notInterleaved_of_right (h : Right moves s) : NotInterleaved moves := by
  rw [notInterleaved_iff, ← h.inOrder, List.pairwise_flatMap]
  exact ⟨fun g hg => pairwise_of_single (h.single g hg), h.ordered⟩

theorem right_iff (hbuilt : Built moves moves.length s) :
    Right moves s.pushNonempty ↔ NotInterleaved moves ∧ NoBypassAfterCopy moves := by
  have hflat : s.pushNonempty.mngs.flatMap (·.nodes) = List.range moves.length :=
    (flatMap_pushNonempty s).trans hbuilt.covers
  constructor
  · intro h
    refine ⟨notInterleaved_of_right h, noBypassAfterCopy_iff.2 ?_⟩
    intro i hbypass
    have hlast : i + 1 < moves.length := by
      obtain ⟨_, move, _, _, hmove, _⟩ := hbypass
      exact (List.getElem?_eq_some_iff.1 hmove).1
    obtain ⟨g, hg, hempty⟩ := hbuilt.empties.pushed i hlast hbypass
    refine h.nonempty g ?_ hempty
    rw [Building.mngs_pushNonempty]
    split
    · exact hg
    · exact List.mem_append_left _ hg
  · rintro ⟨hapart, hbypass⟩
    obtain ⟨hnonempty, hsingle⟩ := (hbuilt.cut hapart hbypass).pushNonempty
    rw [notInterleaved_iff, ← hflat, List.pairwise_flatMap] at hapart
    exact ⟨hnonempty, hflat, hsingle, (Building.programOperations_pushNonempty s).trans hbuilt.follows.operations,
      (Building.moveNodes_pushNonempty s).trans hbuilt.follows.moveNodes, hapart.2⟩

/-- No operation is left without its trigger. -/
theorem noUntriggered (hsequential : Sequential moves) (hbuilt : Built moves moves.length s) (functionUnit : String) :
    s.pushNonempty.hasUntriggered functionUnit = false := by
  have hnone : s.pushNonempty.untriggered functionUnit = none := by
    rw [Building.untriggered_pushNonempty, hbuilt.follows.untriggered, hsequential.finished]
  rw [Building.hasUntriggered, hnone]

/-- Every sequential block is built. Its groups are right exactly when its operations are
not interleaved and no register copy is followed by a result that begins an operation. -/
theorem build_right_iff (bb : List (List Move)) (hsequential : Sequential (movesOf bb)) :
    ∃ s, build bb = some s ∧
      (Right (movesOf bb) s ↔ NotInterleaved (movesOf bb) ∧ NoBypassAfterCopy (movesOf bb)) := by
  obtain ⟨s, hs, hbuilt⟩ := built_run hsequential (Nat.le_refl _)
  rw [List.take_length] at hs
  refine ⟨s.pushNonempty, ?_, right_iff hbuilt⟩
  rw [build, hs]
  simp [noUntriggered hsequential hbuilt]

/-- An operand, a register copy, and a result that is the operand of another operation. -/
def copyThenBypass : List (List Move) :=
  [[⟨.other, .fuPort "alu" true true "neg" ""⟩], [⟨.other, .other⟩],
    [⟨.fuPort "alu" false false "" "", .fuPort "shifter" true true "not" ""⟩]]

theorem sequential_copyThenBypass : Sequential (movesOf copyThenBypass) := by
  constructor
  · intro i move hmove hsource
    rcases i with _ | _ | _ | i
    · cases hmove
      cases hsource
    · cases hmove
      cases hsource
    · cases hmove
      decide
    · cases hmove
  · intro functionUnit
    by_cases halu : "alu" = functionUnit <;> by_cases hshifter : "shifter" = functionUnit <;>
      simp [movesOf, copyThenBypass, unitAt, Move.destIsFU, Terminal.isFUPort, Terminal.isSpecialRegisterPort,
        Terminal.functionUnit, Terminal.isTriggering, Unit.feed, halu, hshifter]

theorem build_right_iff_copyThenBypass : ∃ s, build copyThenBypass = some s ∧
    (Right (movesOf copyThenBypass) s ↔
      NotInterleaved (movesOf copyThenBypass) ∧ NoBypassAfterCopy (movesOf copyThenBypass)) :=
  build_right_iff copyThenBypass sequential_copyThenBypass

/-- The group that is pushed when the result begins its operation has no nodes. -/
theorem not_right_copyThenBypass :
    Sequential (movesOf copyThenBypass) ∧ ¬∃ s, build copyThenBypass = some s ∧ Right (movesOf copyThenBypass) s := by
  refine ⟨sequential_copyThenBypass, ?_⟩
  rintro ⟨s, hs, hright⟩
  have hgroups : (build copyThenBypass).map (·.mngs) = some [⟨some 0, [0]⟩, ⟨none, [1]⟩, ⟨none, []⟩, ⟨some 2, [2]⟩] := by
    decide
  rw [hs, Option.map_some, Option.some.injEq] at hgroups
  exact hright.nonempty ⟨none, []⟩ (by simp [hgroups]) rfl

end Tce.Selector.MoveNodeGroupBuilder
