import Tce.Selector.MoveNodeGroupBuilder

/-!
# The operations of a block and its groups

Which operation each move of a block belongs to follows from what its function units
do, and the groups of the block are judged by that.
-/

namespace Tce.Selector.MoveNodeGroupBuilder

/-- What a function unit does. An operation is known by the number of its first move. -/
structure Unit where
  /-- The operation that operands are collected for. -/
  collecting : Option Nat
  /-- The operation that was triggered last. -/
  executed : Option Nat
  deriving DecidableEq

/-- The unit takes an operand with a move of the number. -/
def Unit.feed (unit : Unit) (i : Nat) (isTriggering : Bool) : Unit :=
  if isTriggering then ⟨none, some (unit.collecting.getD i)⟩ else ⟨some (unit.collecting.getD i), unit.executed⟩

/-- The unit before the move of the number. -/
def unitAt (moves : List Move) (functionUnit : String) : Nat → Unit
  | 0 => ⟨none, none⟩
  | i + 1 =>
    match moves[i]? with
    | some move =>
      if move.destIsFU && move.destination.functionUnit = functionUnit then
        (unitAt moves functionUnit i).feed i move.destination.isTriggering
      else unitAt moves functionUnit i
    | none => unitAt moves functionUnit i

/-- The operation whose result the move reads. -/
def sourceOperation (moves : List Move) (i : Nat) : Option Nat :=
  (moves[i]?).bind fun move =>
    if move.sourceIsFU then (unitAt moves move.source.functionUnit i).executed else none

/-- The operation that the move is an operand of. -/
def destinationOperation (moves : List Move) (i : Nat) : Option Nat :=
  (moves[i]?).bind fun move =>
    if move.destIsFU then some ((unitAt moves move.destination.functionUnit i).collecting.getD i) else none

/-- The operation that the move is a part of: the one it is an operand of, or else the one
whose result it reads. A register copy has none. -/
def operationOf (moves : List Move) (i : Nat) : Option Nat :=
  (destinationOperation moves i).or (sourceOperation moves i)

/-- Results are read of operations that were triggered, and all operations are triggered. -/
structure Sequential (moves : List Move) : Prop where
  executed : ∀ i move, moves[i]? = some move → move.sourceIsFU = true →
    (unitAt moves move.source.functionUnit i).executed.isSome = true
  finished : ∀ functionUnit, (unitAt moves functionUnit moves.length).collecting = none

/-- The operation that a move began, with the operands and results among the first moves. -/
def operationAt (moves : List Move) (n p : Nat) : ProgramOperation where
  id := p
  operation := ((moves[p]?).map (·.destination.usedOperation)).getD ""
  inputMoves := (List.range n).filter fun i => destinationOperation moves i = some p
  outputMoves := (List.range n).filter fun i => sourceOperation moves i = some p

/-- The operations that the first moves belong to. -/
def operationsOf (moves : List Move) (n : Nat) : List ProgramOperation :=
  ((List.range n).filter fun i => destinationOperation moves i = some i).map (operationAt moves n)

/-- The nodes of the first moves. -/
def moveNodesOf (moves : List Move) (n : Nat) : List MoveNode :=
  (List.range n).map fun i => ⟨sourceOperation moves i, destinationOperation moves i⟩

/-- What the groups of a block are to be. -/
structure Right (moves : List Move) (s : Building) : Prop where
  nonempty : ∀ g ∈ s.mngs, g.nodes ≠ []
  inOrder : s.mngs.flatMap (·.nodes) = List.range moves.length
  single : ∀ g ∈ s.mngs, (∃ i move, g.nodes = [i] ∧ moves[i]? = some move ∧ move.isCopy = true) ∨
    ∃ p, ∀ i ∈ g.nodes, operationOf moves i = some p
  operations : s.programOperations = operationsOf moves moves.length
  moveNodes : s.moveNodes = moveNodesOf moves moves.length
  ordered : s.mngs.Pairwise fun g g' => ∀ i ∈ g.nodes, ∀ j ∈ g'.nodes, ∀ p q,
    operationOf moves i = some p → operationOf moves j = some q → p ≤ q

/-- No move is part of an operation that began before that of an earlier move. -/
def NotInterleaved (moves : List Move) : Prop :=
  ∀ i j p q, i < j → operationOf moves i = some p → operationOf moves j = some q → p ≤ q

/-- A result that begins an operation does not directly follow a register copy. -/
def NoBypassAfterCopy (moves : List Move) : Prop :=
  ∀ i copy move, moves[i]? = some copy → copy.isCopy = true → moves[i + 1]? = some move → move.sourceIsFU = true →
    destinationOperation moves (i + 1) ≠ some (i + 1)

variable {moves : List Move} {functionUnit : String} {i : Nat} {move : Move} {p : Nat}

theorem unitAt_succ (hmove : moves[i]? = some move) : unitAt moves functionUnit (i + 1) =
    if move.destIsFU && move.destination.functionUnit = functionUnit then
      (unitAt moves functionUnit i).feed i move.destination.isTriggering
    else unitAt moves functionUnit i := by
  rw [unitAt, hmove]

theorem destinationOperation_of_move (hmove : moves[i]? = some move) : destinationOperation moves i =
    if move.destIsFU then some ((unitAt moves move.destination.functionUnit i).collecting.getD i) else none := by
  rw [destinationOperation, hmove, Option.bind_some]

theorem sourceOperation_of_move (hmove : moves[i]? = some move) : sourceOperation moves i =
    if move.sourceIsFU then (unitAt moves move.source.functionUnit i).executed else none := by
  rw [sourceOperation, hmove, Option.bind_some]

/-- The operations of a unit began with an earlier move. -/
theorem began (h : (unitAt moves functionUnit i).collecting = some p ∨ (unitAt moves functionUnit i).executed = some p) :
    p < i ∧ destinationOperation moves p = some p := by
  induction i with
  | zero => rcases h with h | h <;> cases h
  | succ i ih =>
    have hlater := fun hi => (ih hi).imp_left Nat.lt_succ_of_lt
    cases hmove : moves[i]? with
    | none =>
      rw [unitAt, hmove] at h
      exact hlater h
    | some move =>
      rw [unitAt_succ hmove] at h
      split at h
      · next hfeeds =>
        obtain ⟨hdest, rfl⟩ : move.destIsFU = true ∧ move.destination.functionUnit = functionUnit := by
          simpa using hfeeds
        have hfed : (unitAt moves move.destination.functionUnit i).collecting.getD i = p →
            p < i + 1 ∧ destinationOperation moves p = some p := by
          intro hp
          cases hcollecting : (unitAt moves move.destination.functionUnit i).collecting with
          | none =>
            rw [hcollecting] at hp
            obtain rfl : i = p := hp
            rw [destinationOperation_of_move hmove, if_pos hdest, hcollecting]
            exact ⟨Nat.lt_succ_self i, rfl⟩
          | some start =>
            rw [hcollecting] at hp
            cases hp
            exact hlater (Or.inl hcollecting)
        unfold Unit.feed at h
        split at h
        · rcases h with h | h
          · cases h
          · exact hfed (Option.some.inj h)
        · rcases h with h | h
          · exact hfed (Option.some.inj h)
          · exact hlater (Or.inr h)
      · exact hlater h

/-- The operation of a move began with it or with an earlier move. -/
theorem destination_began (h : destinationOperation moves i = some p) :
    p ≤ i ∧ destinationOperation moves p = some p := by
  obtain ⟨move, hmove, hdest⟩ := Option.bind_eq_some_iff.1 h
  split at hdest
  · cases hcollecting : (unitAt moves move.destination.functionUnit i).collecting with
    | none =>
      rw [hcollecting] at hdest
      cases hdest
      exact ⟨Nat.le_refl i, h⟩
    | some start =>
      rw [hcollecting] at hdest
      cases hdest
      exact (began (Or.inl hcollecting)).imp_left Nat.le_of_lt
  · cases hdest

theorem source_began (h : sourceOperation moves i = some p) : p < i ∧ destinationOperation moves p = some p := by
  obtain ⟨move, hmove, hsource⟩ := Option.bind_eq_some_iff.1 h
  split at hsource
  · exact began (Or.inr hsource)
  · cases hsource

theorem operationOf_self (h : destinationOperation moves p = some p) : operationOf moves p = some p := by
  rw [operationOf, h, Option.some_or]

/-! ## One move -/

/-- A move is one more operand of an operation and one more result of another. -/
def ProgramOperation.extend (po : ProgramOperation) (i : Nat) (source dest : Option Nat) : ProgramOperation :=
  { po with
    inputMoves := po.inputMoves ++ if dest = some po.id then [i] else []
    outputMoves := po.outputMoves ++ if source = some po.id then [i] else [] }

theorem filter_range_succ (f : Nat → Option Nat) (p : Nat) : (List.range (i + 1)).filter (fun k => f k = some p) =
    (List.range i).filter (fun k => f k = some p) ++ if f i = some p then [i] else [] := by
  rw [List.range_succ, List.filter_append]
  by_cases h : f i = some p <;> simp [h]

theorem operationAt_succ : operationAt moves (i + 1) p =
    (operationAt moves i p).extend i (sourceOperation moves i) (destinationOperation moves i) := by
  rw [operationAt, filter_range_succ, filter_range_succ]
  rfl

/-- An operation that begins has no operands and results before. -/
theorem operationAt_self : operationAt moves i i =
    ⟨i, ((moves[i]?).map (·.destination.usedOperation)).getD "", [], []⟩ := by
  have hin : (List.range i).filter (fun k => destinationOperation moves k = some i) = [] := by
    apply List.filter_eq_nil_iff.2
    intro k hk hdest
    have := (destination_began (of_decide_eq_true hdest)).1
    have := List.mem_range.1 hk
    omega
  have hout : (List.range i).filter (fun k => sourceOperation moves k = some i) = [] := by
    apply List.filter_eq_nil_iff.2
    intro k hk hsource
    have := (source_began (of_decide_eq_true hsource)).1
    have := List.mem_range.1 hk
    omega
  rw [operationAt, hin, hout]

theorem operationsOf_succ : operationsOf moves (i + 1) =
    (operationsOf moves i ++ if destinationOperation moves i = some i then [operationAt moves i i] else []).map
      fun po => po.extend i (sourceOperation moves i) (destinationOperation moves i) := by
  have hextend : operationAt moves (i + 1) = (fun po : ProgramOperation =>
      po.extend i (sourceOperation moves i) (destinationOperation moves i)) ∘ operationAt moves i :=
    funext fun p => operationAt_succ
  rw [operationsOf, operationsOf, hextend, ← List.map_map, List.range_succ, List.filter_append]
  by_cases h : destinationOperation moves i = some i <;> simp [h]

/-- What the builder has found of the first moves. -/
structure Follows (moves : List Move) (i : Nat) (s : Building) : Prop where
  untriggered : ∀ functionUnit, s.untriggered functionUnit = (unitAt moves functionUnit i).collecting
  triggered : ∀ functionUnit, s.triggered functionUnit = (unitAt moves functionUnit i).executed
  operations : s.programOperations = operationsOf moves i
  moveNodes : s.moveNodes = moveNodesOf moves i

variable {s s' : Building}

theorem Follows.length (hs : Follows moves i s) : s.moveNodes.length = i := by
  rw [hs.moveNodes, moveNodesOf, List.length_map, List.length_range]

/-- The groups after a move, by what the move is. -/
def Grouped (moves : List Move) (i : Nat) (move : Move) (s s' : Building) : Prop :=
  if move.isCopy then s'.mngs = s.pushNonempty.mngs ++ [⟨none, [i]⟩] ∧ s'.mng.nodes = []
  else if destinationOperation moves i = some i then
    s'.mngs = (if move.sourceIsFU then s.mngs ++ [s.mng] else s.pushNonempty.mngs) ∧ s'.mng.nodes = [i]
  else s'.mngs = s.mngs ∧ s'.mng.nodes = s.mng.nodes ++ [i]

theorem moveNodesOf_succ : moveNodesOf moves (i + 1) =
    moveNodesOf moves i ++ [⟨sourceOperation moves i, destinationOperation moves i⟩] := by
  rw [moveNodesOf, moveNodesOf, List.range_succ, List.map_append]
  rfl

/-- Units that take no operand with the move are as before. -/
theorem unitAt_of_noDest (hmove : moves[i]? = some move) (hdest : move.destIsFU = false) :
    unitAt moves functionUnit (i + 1) = unitAt moves functionUnit i := by
  rw [unitAt_succ hmove, hdest, Bool.false_and, if_neg Bool.false_ne_true]

/-- The operation whose operand the unit takes is triggered or stays untriggered. -/
theorem trigger_units (s : Building) (po : Nat) (hmove : moves[i]? = some move) (hdest : move.destIsFU = true)
    (hpo : (unitAt moves move.destination.functionUnit i).collecting.getD i = po)
    (huntriggered : ∀ functionUnit, s.untriggered functionUnit =
      if functionUnit = move.destination.functionUnit then some po else (unitAt moves functionUnit i).collecting)
    (htriggered : ∀ functionUnit, s.triggered functionUnit = (unitAt moves functionUnit i).executed) :
    (∀ functionUnit, (s.trigger po move.destination).untriggered functionUnit =
      (unitAt moves functionUnit (i + 1)).collecting) ∧
    ∀ functionUnit, (s.trigger po move.destination).triggered functionUnit =
      (unitAt moves functionUnit (i + 1)).executed := by
  have hunit : ∀ functionUnit, unitAt moves functionUnit (i + 1) =
      if functionUnit = move.destination.functionUnit then
        (unitAt moves move.destination.functionUnit i).feed i move.destination.isTriggering
      else unitAt moves functionUnit i := by
    intro functionUnit
    rw [unitAt_succ hmove, hdest, Bool.true_and]
    by_cases hsame : functionUnit = move.destination.functionUnit
    · rw [if_pos hsame, hsame, if_pos (by simp)]
    · rw [if_neg hsame, if_neg (by simpa using Ne.symm hsame)]
  constructor
  · intro functionUnit
    rw [hunit, Building.trigger]
    by_cases htrigger : move.destination.isTriggering = true
    · by_cases hsame : functionUnit = move.destination.functionUnit
      · simp [htrigger, hsame, Unit.feed]
      · simp [htrigger, hsame, huntriggered]
    · by_cases hsame : functionUnit = move.destination.functionUnit
      · simp [htrigger, hsame, Unit.feed, huntriggered, hpo]
      · simp [htrigger, hsame, huntriggered]
  · intro functionUnit
    rw [hunit, Building.trigger]
    by_cases htrigger : move.destination.isTriggering = true
    · by_cases hsame : functionUnit = move.destination.functionUnit
      · simp [htrigger, hsame, Unit.feed, hpo]
      · simp [htrigger, hsame, htriggered]
    · by_cases hsame : functionUnit = move.destination.functionUnit
      · simp [htrigger, hsame, Unit.feed, htriggered]
      · simp [htrigger, hsame, htriggered]

/-- Operations that get an operand or a result are extended. -/
theorem addInput_eq_extend (ops : List ProgramOperation) (po : Nat) :
    (ops.map fun p => if p.id = po then { p with inputMoves := p.inputMoves ++ [i] } else p) =
      ops.map fun p => p.extend i none (some po) := by
  apply List.map_congr_left
  intro p _
  by_cases h : p.id = po
  · simp [ProgramOperation.extend, h]
  · simp [ProgramOperation.extend, h, Ne.symm h]

theorem addOutput_eq_extend (ops : List ProgramOperation) (po : Nat) :
    (ops.map fun p => if p.id = po then { p with outputMoves := p.outputMoves ++ [i] } else p) =
      ops.map fun p => p.extend i (some po) none := by
  apply List.map_congr_left
  intro p _
  by_cases h : p.id = po
  · simp [ProgramOperation.extend, h]
  · simp [ProgramOperation.extend, h, Ne.symm h]

theorem mngs_construct_pushNonempty (po : Nat) (dest : Terminal) :
    (s.construct po dest).pushNonempty.mngs = s.pushNonempty.mngs := by
  rw [Building.mngs_pushNonempty, Building.mngs_pushNonempty]
  rfl

theorem extend_none (po : ProgramOperation) : po.extend i none none = po := by simp [ProgramOperation.extend]

theorem extend_extend (po : ProgramOperation) (source dest : Option Nat) :
    (po.extend i source none).extend i none dest = po.extend i source dest := by simp [ProgramOperation.extend]

theorem isCopy_of_dest (hdest : move.destIsFU = true) : move.isCopy = false := by
  rw [Move.isCopy, hdest, Bool.not_true, Bool.and_false]

/-- A move to a unit whose operation is not triggered belongs to that operation, which began before. -/
theorem destination_of_collecting (hs : Follows moves i s) (hmove : moves[i]? = some move) (hdest : move.destIsFU = true)
    (hfound : s.untriggered move.destination.functionUnit = some p) :
    (unitAt moves move.destination.functionUnit i).collecting = some p ∧ destinationOperation moves i = some p ∧
      destinationOperation moves i ≠ some i := by
  have hcollecting := (hs.untriggered _).symm.trans hfound
  have hdestOp := destinationOperation_of_move hmove
  rw [if_pos hdest, hcollecting, Option.getD_some] at hdestOp
  have hbefore : p < i := (began (Or.inl hcollecting)).1
  refine ⟨hcollecting, hdestOp, ?_⟩
  rw [hdestOp]
  exact fun heq => absurd (Option.some.inj heq) (Nat.ne_of_lt hbefore)

/-- Another move to a unit begins an operation. -/
theorem destination_of_none (hs : Follows moves i s) (hmove : moves[i]? = some move) (hdest : move.destIsFU = true)
    (hfound : s.untriggered move.destination.functionUnit = none) :
    (unitAt moves move.destination.functionUnit i).collecting = none ∧ destinationOperation moves i = some i := by
  have hcollecting := (hs.untriggered _).symm.trans hfound
  have hdestOp := destinationOperation_of_move hmove
  rw [if_pos hdest, hcollecting, Option.getD_none] at hdestOp
  exact ⟨hcollecting, hdestOp⟩

theorem operandMove_spec (hs : Follows moves i s) (hmove : moves[i]? = some move) (hsource : move.sourceIsFU = false)
    (hdest : move.destIsFU = true) :
    Follows moves (i + 1) (s.operandMove i move.destination) ∧
      Grouped moves i move s (s.operandMove i move.destination) := by
  have hnoSource : sourceOperation moves i = none := by
    rw [sourceOperation_of_move hmove, hsource, if_neg Bool.false_ne_true]
  have hself : operationAt moves i i = ⟨i, move.destination.usedOperation, [], []⟩ := by
    rw [operationAt_self, hmove]
    rfl
  unfold Building.operandMove
  cases hfound : s.untriggered move.destination.functionUnit with
  | some po =>
    obtain ⟨hcollecting, hdestOp, hnotNew⟩ := destination_of_collecting hs hmove hdest hfound
    obtain ⟨huntriggered, htriggered⟩ := trigger_units
      (((s.addInputNode po i).addMoveNode ⟨none, some po⟩).addNode i) po hmove hdest (by rw [hcollecting]; rfl)
      (fun functionUnit => by
        change s.untriggered functionUnit = _
        split
        · next hsame => rw [hsame, hfound]
        · exact hs.untriggered functionUnit) hs.triggered
    refine ⟨⟨huntriggered, htriggered, ?_, ?_⟩, ?_⟩
    · rw [Building.programOperations_trigger, operationsOf_succ, if_neg hnotNew, List.append_nil, hnoSource, hdestOp,
        ← hs.operations]
      exact addInput_eq_extend s.programOperations po
    · rw [Building.moveNodes_trigger, moveNodesOf_succ, hnoSource, hdestOp, ← hs.moveNodes]
      rfl
    · rw [Grouped, isCopy_of_dest hdest, if_neg Bool.false_ne_true, if_neg hnotNew]
      exact ⟨Building.mngs_trigger .., congrArg MoveNodeGroup.nodes (Building.mng_trigger ..)⟩
  | none =>
    obtain ⟨hcollecting, hdestOp⟩ := destination_of_none hs hmove hdest hfound
    obtain ⟨huntriggered, htriggered⟩ := trigger_units
      ((((((s.construct i move.destination).pushNonempty).setProgramOperation i).addInputNode i i).addMoveNode
        ⟨none, some i⟩).addNode i) i hmove hdest (by rw [hcollecting]; rfl)
      (fun functionUnit => by
        change (s.construct i move.destination).pushNonempty.untriggered functionUnit = _
        rw [Building.untriggered_pushNonempty, Building.untriggered_construct, hs.untriggered])
      (fun functionUnit => by
        change (s.construct i move.destination).pushNonempty.triggered functionUnit = _
        rw [Building.triggered_pushNonempty]
        exact hs.triggered functionUnit)
    refine ⟨⟨huntriggered, htriggered, ?_, ?_⟩, ?_⟩
    · rw [Building.programOperations_trigger, operationsOf_succ, if_pos hdestOp, hnoSource, hdestOp, ← hs.operations,
        hself, ← addInput_eq_extend]
      exact congrArg (List.map _) (Building.programOperations_pushNonempty _)
    · rw [Building.moveNodes_trigger, moveNodesOf_succ, hnoSource, hdestOp, ← hs.moveNodes]
      exact congrArg (· ++ _) (Building.moveNodes_pushNonempty _)
    · rw [Grouped, isCopy_of_dest hdest, if_neg Bool.false_ne_true, if_pos hdestOp, hsource, if_neg Bool.false_ne_true]
      refine ⟨(Building.mngs_trigger ..).trans (mngs_construct_pushNonempty _ _), ?_⟩
      rw [Building.mng_trigger]
      exact congrArg (· ++ [i]) (Building.nodes_pushNonempty _)

theorem resultMove_spec (hs : Follows moves i s) (hmove : moves[i]? = some move) (hsource : move.sourceIsFU = true)
    (hdest : move.destIsFU = false) (h : s.resultMove i move.source = some s') :
    Follows moves (i + 1) s' ∧ Grouped moves i move s s' := by
  have hnoDest : destinationOperation moves i = none := by
    rw [destinationOperation_of_move hmove, hdest, if_neg Bool.false_ne_true]
  have hsourceOp := sourceOperation_of_move hmove
  rw [if_pos hsource, ← hs.triggered] at hsourceOp
  have hnotNew : destinationOperation moves i ≠ some i := by
    rw [hnoDest]
    exact fun heq => Option.some_ne_none i heq.symm
  unfold Building.resultMove at h
  cases hfound : s.triggered move.source.functionUnit with
  | none =>
    rw [hfound] at h
    cases h
  | some po =>
    rw [hfound] at h hsourceOp
    cases h
    refine ⟨⟨?_, ?_, ?_, ?_⟩, ?_⟩
    · intro functionUnit
      rw [unitAt_of_noDest hmove hdest]
      exact hs.untriggered functionUnit
    · intro functionUnit
      rw [unitAt_of_noDest hmove hdest]
      exact hs.triggered functionUnit
    · rw [operationsOf_succ, if_neg hnotNew, List.append_nil, hnoDest, hsourceOp, ← hs.operations]
      exact addOutput_eq_extend s.programOperations po
    · rw [moveNodesOf_succ, hsourceOp, hnoDest, ← hs.moveNodes]
      rfl
    · have hcopy : move.isCopy = false := by rw [Move.isCopy, hsource, Bool.not_true, Bool.false_and]
      rw [Grouped, hcopy, if_neg Bool.false_ne_true, if_neg hnotNew]
      exact ⟨rfl, rfl⟩

theorem bypassMove_spec (hs : Follows moves i s) (hmove : moves[i]? = some move) (hsource : move.sourceIsFU = true)
    (hdest : move.destIsFU = true) (h : s.bypassMove i move.source move.destination = some s') :
    Follows moves (i + 1) s' ∧ Grouped moves i move s s' := by
  have hsourceOp := sourceOperation_of_move hmove
  rw [if_pos hsource, ← hs.triggered] at hsourceOp
  have hself : operationAt moves i i = ⟨i, move.destination.usedOperation, [], []⟩ := by
    rw [operationAt_self, hmove]
    rfl
  unfold Building.bypassMove at h
  cases hread : s.triggered move.source.functionUnit with
  | none =>
    rw [hread] at h
    cases h
  | some sourcePO =>
    rw [hread] at h hsourceOp
    have hbegan := (source_began hsourceOp).1
    have hchain : ∀ (ops : List ProgramOperation) (po : Nat), (ops.map fun p => p.extend i (some sourcePO) none).map
        (fun p => p.extend i none (some po)) = ops.map fun p => p.extend i (some sourcePO) (some po) := by
      intro ops po
      rw [List.map_map]
      exact List.map_congr_left fun p _ => extend_extend p _ _
    cases hfound : s.untriggered move.destination.functionUnit with
    | some po =>
      obtain ⟨hcollecting, hdestOp, hnotNew⟩ := destination_of_collecting hs hmove hdest hfound
      have hkept : (s.addOutputNode sourcePO i).untriggered move.destination.functionUnit = some po := hfound
      simp only [hkept] at h
      cases h
      obtain ⟨huntriggered, htriggered⟩ := trigger_units
        ((((s.addOutputNode sourcePO i).addNode i).addInputNode po i).addMoveNode ⟨some sourcePO, some po⟩) po hmove hdest
        (by rw [hcollecting]; rfl)
        (fun functionUnit => by
          change s.untriggered functionUnit = _
          split
          · next hsame => rw [hsame, hfound]
          · exact hs.untriggered functionUnit) hs.triggered
      refine ⟨⟨huntriggered, htriggered, ?_, ?_⟩, ?_⟩
      · rw [Building.programOperations_trigger, operationsOf_succ, if_neg hnotNew, List.append_nil, hsourceOp, hdestOp,
          ← hs.operations, ← hchain, ← addInput_eq_extend, ← addOutput_eq_extend]
        rfl
      · rw [Building.moveNodes_trigger, moveNodesOf_succ, hsourceOp, hdestOp, ← hs.moveNodes]
        rfl
      · rw [Grouped, isCopy_of_dest hdest, if_neg Bool.false_ne_true, if_neg hnotNew]
        exact ⟨Building.mngs_trigger .., congrArg MoveNodeGroup.nodes (Building.mng_trigger ..)⟩
    | none =>
      obtain ⟨hcollecting, hdestOp⟩ := destination_of_none hs hmove hdest hfound
      have hkept : (s.addOutputNode sourcePO i).untriggered move.destination.functionUnit = none := hfound
      simp only [hkept] at h
      cases h
      obtain ⟨huntriggered, htriggered⟩ := trigger_units
        ((((((s.addOutputNode sourcePO i).construct i move.destination).pushGroup.setProgramOperation i).addNode
          i).addInputNode i i).addMoveNode ⟨some sourcePO, some i⟩) i hmove hdest (by rw [hcollecting]; rfl)
        (fun functionUnit => by
          change (s.construct i move.destination).untriggered functionUnit = _
          rw [Building.untriggered_construct, hs.untriggered]) hs.triggered
      -- the new operation is not the one that is read
      have hfresh : ProgramOperation.extend ⟨i, move.destination.usedOperation, [], []⟩ i (some sourcePO) none =
          ⟨i, move.destination.usedOperation, [], []⟩ := by
        simp [ProgramOperation.extend]
        omega
      refine ⟨⟨huntriggered, htriggered, ?_, ?_⟩, ?_⟩
      · rw [Building.programOperations_trigger, operationsOf_succ, if_pos hdestOp, hsourceOp, hdestOp, ← hs.operations,
          hself, ← hchain, List.map_append, List.map_singleton, hfresh, ← addInput_eq_extend, ← addOutput_eq_extend]
        rfl
      · rw [Building.moveNodes_trigger, moveNodesOf_succ, hsourceOp, hdestOp, ← hs.moveNodes]
        rfl
      · rw [Grouped, isCopy_of_dest hdest, if_neg Bool.false_ne_true, if_pos hdestOp, if_pos hsource]
        exact ⟨Building.mngs_trigger .., congrArg MoveNodeGroup.nodes (Building.mng_trigger ..)⟩

theorem copyMove_spec (hs : Follows moves i s) (hmove : moves[i]? = some move) (hsource : move.sourceIsFU = false)
    (hdest : move.destIsFU = false) : Follows moves (i + 1) (s.copyMove i) ∧ Grouped moves i move s (s.copyMove i) := by
  have hnoDest : destinationOperation moves i = none := by
    rw [destinationOperation_of_move hmove, hdest, if_neg Bool.false_ne_true]
  have hnoSource : sourceOperation moves i = none := by
    rw [sourceOperation_of_move hmove, hsource, if_neg Bool.false_ne_true]
  have hnotNew : destinationOperation moves i ≠ some i := by
    rw [hnoDest]
    exact fun heq => Option.some_ne_none i heq.symm
  refine ⟨⟨?_, ?_, ?_, ?_⟩, ?_⟩
  · intro functionUnit
    rw [unitAt_of_noDest hmove hdest, ← hs.untriggered]
    exact congrFun (Building.untriggered_pushNonempty s) functionUnit
  · intro functionUnit
    rw [unitAt_of_noDest hmove hdest, ← hs.triggered]
    exact congrFun (Building.triggered_pushNonempty s) functionUnit
  · have hsame : (fun po : ProgramOperation => po.extend i none none) = id := funext extend_none
    rw [operationsOf_succ, if_neg hnotNew, List.append_nil, hnoDest, hnoSource, hsame, List.map_id, ← hs.operations]
    exact Building.programOperations_pushNonempty s
  · rw [moveNodesOf_succ, hnoSource, hnoDest, ← hs.moveNodes]
    exact congrArg (· ++ _) (Building.moveNodes_pushNonempty s)
  · have hcopy : move.isCopy = true := by rw [Move.isCopy, hsource, hdest]; rfl
    rw [Grouped, if_pos hcopy]
    exact ⟨rfl, rfl⟩

/-- What one move does. -/
theorem buildMove_spec (hs : Follows moves i s) (hmove : moves[i]? = some move) (h : s.buildMove move = some s') :
    Follows moves (i + 1) s' ∧ Grouped moves i move s s' := by
  unfold Building.buildMove at h
  rw [hs.length] at h
  cases hsource : move.sourceIsFU <;> cases hdest : move.destIsFU <;> simp [hsource, hdest] at h
  · cases h
    exact copyMove_spec hs hmove hsource hdest
  · cases h
    exact operandMove_spec hs hmove hsource hdest
  · exact resultMove_spec hs hmove hsource hdest h
  · exact bypassMove_spec hs hmove hsource hdest h

/-- A move is taken when the operation that it reads was triggered. -/
theorem buildMove_isSome (hs : Follows moves i s)
    (hexecuted : move.sourceIsFU = true → (unitAt moves move.source.functionUnit i).executed.isSome = true) :
    ∃ s', s.buildMove move = some s' := by
  have hread : move.sourceIsFU = true → ∃ po, s.triggered move.source.functionUnit = some po := by
    intro hsource
    rw [hs.triggered]
    exact Option.isSome_iff_exists.1 (hexecuted hsource)
  unfold Building.buildMove
  cases hsource : move.sourceIsFU <;> cases hdest : move.destIsFU <;> simp
  · obtain ⟨po, hpo⟩ := hread hsource
    simp [Building.resultMove, hpo]
  · obtain ⟨po, hpo⟩ := hread hsource
    simp only [Building.bypassMove, hpo]
    split <;> exact ⟨_, rfl⟩

end Tce.Selector.MoveNodeGroupBuilder
