import Tce.OSAL.OperationLayout

/-!
# Saved descriptions

An operation that was loaded from a description is saved, and the state is loaded
into another object.
-/

namespace Tce.OSAL
open Tce.Tools

namespace OperationPimpl
variable {operation other loaded : OperationPimpl}

/-- An operation without what the children of a description give it. -/
def withoutChildren (operation : OperationPimpl) : OperationPimpl :=
  { operation with affects := ∅, affectedBy := ∅, inputOperands := [], outputOperands := [], dags := [] }

/-- An output operand as it is loaded. -/
def asOutput (operand : Operand) : Operand := { operand with isInput := false }

/-- The operation that the saved one becomes. -/
def reloaded (operation : OperationPimpl) : OperationPimpl :=
  { operation with outputOperands := operation.outputOperands.map asOutput }

theorem attributeValue_saveState (key : String) : operation.saveState.attributeValue key =
    if key = "writes-memory" then some (Operand.boolValue operation.writesMemory)
    else if key = "reads-memory" then some (Operand.boolValue operation.readsMemory)
    else if key = "is-branch" then some (Operand.boolValue operation.isBranch)
    else if key = "is-call" then some (Operand.boolValue operation.isCall)
    else if key = "control-flow" then some (Operand.boolValue operation.controlFlowOperation)
    else if key = "clocked" then some (Operand.boolValue operation.isClocked)
    else if key = "side-effects" then some (Operand.boolValue operation.hasSideEffects)
    else if key = "trap" then some (Operand.boolValue operation.canTrap)
    else if key = "outputs" then some (.int operation.outputs)
    else if key = "inputs" then some (.int operation.inputs)
    else if key = "description" then some (.text operation.description)
    else if key = "name" then some (.text operation.name)
    else none := by
  simp [saveState]

theorem loadAttributes_saveState (hname : Names.stringToUpper operation.name = operation.name) :
    other.clear.loadAttributes operation.saveState = some operation.withoutChildren := by
  have htext : ∀ key text, operation.saveState.attributeValue key = some (.text text) →
      operation.saveState.stringAttribute key = some text := fun _ _ => ObjectState.stringAttribute_of_text
  have hint : ∀ key value, operation.saveState.attributeValue key = some (.int value) →
      operation.saveState.intAttribute key = some value := fun _ _ => ObjectState.intAttribute_of_int
  have hbool : ∀ key value, operation.saveState.attributeValue key = some (Operand.boolValue value) →
      operation.saveState.boolAttribute key = some value := fun _ _ => Operand.boolAttribute_boolValue
  simp only [attributeValue_saveState] at htext hint hbool
  rw [loadAttributes, htext "name" operation.name (by simp), htext "description" operation.description (by simp),
    hint "inputs" operation.inputs (by simp), hint "outputs" operation.outputs (by simp),
    hbool "trap" operation.canTrap (by simp), hbool "side-effects" operation.hasSideEffects (by simp),
    hbool "clocked" operation.isClocked (by simp), hbool "control-flow" operation.controlFlowOperation (by simp),
    hbool "is-call" operation.isCall (by simp), hbool "is-branch" operation.isBranch (by simp),
    hbool "reads-memory" operation.readsMemory (by simp), hbool "writes-memory" operation.writesMemory (by simp)]
  simp only [Option.bind_eq_bind, Option.bind_some, hname]
  rfl

/-! ## Names -/

theorem foldlM_loadName (names : List String) (set : Finset String)
    (hupper : ∀ name ∈ names, Names.stringToUpper name = name) :
    (names.map saveName).foldlM loadName set = some (names.foldl (fun set name => insert name set) set) := by
  induction names generalizing set with
  | nil => rfl
  | cons name names ih =>
    have hname : (saveName name).stringAttribute "name" = some name :=
      ObjectState.stringAttribute_of_text (by simp [saveName])
    rw [List.map_cons, List.foldlM_cons, loadName, hname, Option.map_some, hupper name List.mem_cons_self]
    exact ih _ fun other hother => hupper other (List.mem_cons_of_mem name hother)

theorem foldlM_loadName_sort (names : Finset String) (hupper : ∀ name ∈ names, Names.stringToUpper name = name) :
    ((names.sort (· ≤ ·)).map saveName).foldlM loadName ∅ = some names := by
  rw [foldlM_loadName _ _ fun name hname => hupper name ((Finset.mem_sort _).1 hname), Rebuild.foldl_insert_sort]

theorem load_affectedBy (names : Finset String) (hupper : ∀ name ∈ names, Names.stringToUpper name = name)
    (hnone : operation.affectedBy = ∅) :
    (saveNames "affected-by" names).foldlM loadChild operation = some { operation with affectedBy := names } := by
  unfold saveNames
  split
  · have hload : operation.loadChild
        ((ObjectState.node "affected-by" [] []).addChildren ((names.sort (· ≤ ·)).map saveName)) =
        some { operation with affectedBy := names } := by
      simp [loadChild, hnone, foldlM_loadName_sort names hupper]
    rw [List.foldlM_cons, hload]
    rfl
  · next hcard =>
    rw [Finset.card_eq_zero.1 (Nat.eq_zero_of_not_pos hcard), ← hnone]
    rfl

theorem load_affects (names : Finset String) (hupper : ∀ name ∈ names, Names.stringToUpper name = name)
    (hnone : operation.affects = ∅) :
    (saveNames "affects" names).foldlM loadChild operation = some { operation with affects := names } := by
  unfold saveNames
  split
  · have hload : operation.loadChild
        ((ObjectState.node "affects" [] []).addChildren ((names.sort (· ≤ ·)).map saveName)) =
        some { operation with affects := names } := by
      simp [loadChild, hnone, foldlM_loadName_sort names hupper]
    rw [List.foldlM_cons, hload]
    rfl
  · next hcard =>
    rw [Finset.card_eq_zero.1 (Nat.eq_zero_of_not_pos hcard), ← hnone]
    rfl

/-! ## Operands and DAGs -/

theorem load_inputs (operands : List Operand)
    (hoperands : ∀ o ∈ operands, (1 ≤ o.index ∧ o.index ≤ operation.inputs) ∧ o.isInput = true) :
    (operands.map saveIn).foldlM loadChild operation = some { operation with
      inputOperands := operands.foldl (fun ops o => insertOperand o ops) operation.inputOperands } := by
  induction operands generalizing operation with
  | nil => rfl
  | cons o operands ih =>
    obtain ⟨⟨hfirst, hlast⟩, hinput⟩ := hoperands o List.mem_cons_self
    have hload : operation.loadChild (saveIn o) =
        some { operation with inputOperands := insertOperand o operation.inputOperands } := by
      have hrange : ¬(o.index < 1 ∨ o.index > operation.inputs) := by omega
      have hsame : { o with isInput := true } = o := by rw [← hinput]
      simp [loadChild, loadIn, saveIn, Operand.loadState_saveState, Operand.new, hsame]
      omega
    rw [List.map_cons, List.foldlM_cons, hload, List.foldl_cons]
    exact ih fun other hother => hoperands other (List.mem_cons_of_mem o hother)

theorem load_outputs (operands : List Operand) (hoperands : ∀ o ∈ operands,
      operation.inputs < o.index ∧ o.index ≤ operation.inputs + operation.outputs) :
    (operands.map saveOut).foldlM loadChild operation = some { operation with
      outputOperands := (operands.map asOutput).foldl (fun ops o => insertOperand o ops) operation.outputOperands } := by
  induction operands generalizing operation with
  | nil => rfl
  | cons o operands ih =>
    obtain ⟨hfirst, hlast⟩ := hoperands o List.mem_cons_self
    have hload : operation.loadChild (saveOut o) =
        some { operation with outputOperands := insertOperand (asOutput o) operation.outputOperands } := by
      simp [loadChild, loadOut, saveOut, Operand.loadState_saveState, Operand.new, asOutput]
      omega
    rw [List.map_cons, List.foldlM_cons, hload, List.map_cons, List.foldl_cons]
    exact ih fun other hother => hoperands other (List.mem_cons_of_mem o hother)

theorem load_triggers (codes : List String) :
    (codes.map saveTrigger).foldlM loadChild operation = some { operation with dags := operation.dags ++ codes } := by
  induction codes generalizing operation with
  | nil => simp
  | cons code codes ih =>
    have hload : operation.loadChild (saveTrigger code) = some { operation with dags := operation.dags ++ [code] } := by
      simp [loadChild, saveTrigger]
    rw [List.map_cons, List.foldlM_cons, hload]
    refine ih.trans ?_
    simp

/-! ## Loading what was saved -/

/-- An operation that a description can be loaded to. -/
structure Described (operation : OperationPimpl) : Prop extends operation.Loading where
  inputsGiven : ∀ id ∈ operation.inputIds, id ∈ operation.inputOperands.map (·.index)
  outputsGiven : ∀ id ∈ operation.outputIds, id ∈ operation.outputOperands.map (·.index)
  nonzero : ∀ id ∈ operation.outputIds, id ≠ 0

theorem given_fill {ids : List Int} {ops : List Operand} (hids : ids.Nodup) :
    ∀ id ∈ ids, id ∈ (Rebuild.fill (·.index) defaultOperand ids ops).map (·.index) := by
  intro id hid
  by_cases hhas : id ∈ ops.map (·.index)
  · obtain ⟨o, ho, rfl⟩ := List.mem_map.1 hhas
    exact List.mem_map_of_mem ((Rebuild.mem_fill (fun _ => rfl) hids o).2 (Or.inl ho))
  · exact List.mem_map.2
      ⟨defaultOperand id, (Rebuild.mem_fill (fun _ => rfl) hids _).2 (Or.inr ⟨id, hid, hhas, rfl⟩), rfl⟩

theorem described_of_loadState {state : ObjectState} (h : operation.loadState state = some loaded) :
    loaded.Described := by
  obtain ⟨attributes, given, _, _, hl, _, hzero, rfl⟩ := loadState_cases h
  refine { hl with
    inputsOrdered := Rebuild.pairwise_fill hl.inputsOrdered
    outputsOrdered := Rebuild.pairwise_fill hl.outputsOrdered
    inputsInRange := ?_
    outputsInRange := ?_
    areInputs := areInputs_fill hl
    inputsGiven := given_fill ((pairwise_range _ _).imp Int.ne_of_lt)
    outputsGiven := given_fill ((pairwise_range _ _).imp Int.ne_of_lt)
    nonzero := hzero }
  · intro o ho
    rcases (Rebuild.mem_fill (fun _ => rfl) ((pairwise_range _ _).imp Int.ne_of_lt) o).1 ho with ho | ⟨k, hk, _, rfl⟩
    · exact hl.inputsInRange o ho
    · exact mem_inputIds.1 hk
  · intro o ho
    rcases (Rebuild.mem_fill (fun _ => rfl) ((pairwise_range _ _).imp Int.ne_of_lt) o).1 ho with ho | ⟨k, hk, _, rfl⟩
    · exact hl.outputsInRange o ho
    · exact mem_outputIds.1 hk

theorem insert_all (ops : List Operand) (h : ops.Pairwise fun a b => a.index ≤ b.index) :
    ops.foldl (fun ops o => insertOperand o ops) [] = ops := Rebuild.inOrder_of_pairwise h

theorem children_saveState : operation.saveState.children =
    saveNames "affected-by" operation.affectedBy ++ saveNames "affects" operation.affects ++
      operation.inputOperands.map saveIn ++ operation.outputOperands.map saveOut ++
      operation.dags.map saveTrigger := by
  simp [saveState]

theorem foldlM_append_some {children children' : List ObjectState} {s s' s'' : OperationPimpl}
    (h : children.foldlM loadChild s = some s') (h' : children'.foldlM loadChild s' = some s'') :
    (children ++ children').foldlM loadChild s = some s'' := by
  rw [List.foldlM_append, h]
  exact h'

/-- The children that are saved are loaded as they were, and the outputs as outputs. -/
theorem load_children (hl : operation.Loading) :
    operation.saveState.children.foldlM loadChild operation.withoutChildren = some operation.reloaded := by
  have hin : ∀ o ∈ operation.inputOperands, (1 ≤ o.index ∧ o.index ≤ operation.inputs) ∧ o.isInput = true :=
    fun o ho => ⟨hl.inputsInRange o ho, hl.areInputs o ho⟩
  have hinputs : (operation.inputOperands.map saveIn).foldlM loadChild
      { operation.withoutChildren with affectedBy := operation.affectedBy, affects := operation.affects } =
      some { operation with outputOperands := [], dags := [] } := by
    refine (load_inputs _ ?_).trans ?_
    · exact hin
    · exact congrArg (fun ops => some { operation with inputOperands := ops, outputOperands := [], dags := [] })
        (insert_all _ hl.inputsOrdered)
  have houtputs : (operation.outputOperands.map saveOut).foldlM loadChild
      { operation with outputOperands := [], dags := [] } = some { operation.reloaded with dags := [] } := by
    refine (load_outputs _ ?_).trans ?_
    · exact hl.outputsInRange
    · exact congrArg (fun ops => some { operation with outputOperands := ops, dags := [] })
        (insert_all (operation.outputOperands.map asOutput) (List.pairwise_map.2 hl.outputsOrdered))
  rw [children_saveState]
  exact foldlM_append_some (foldlM_append_some (foldlM_append_some (foldlM_append_some
    (load_affectedBy _ hl.affectedByUpper rfl) (load_affects _ hl.affectsUpper rfl)) hinputs) houtputs)
    (load_triggers operation.dags)

theorem map_index_asOutput (ops : List Operand) : (ops.map asOutput).map (·.index) = ops.map (·.index) := by
  rw [List.map_map]
  rfl

/-- A saved description is accepted, and gives the operation that was saved but for the
direction of its outputs. -/
theorem loadState_saveState (hd : operation.Described) :
    other.loadState operation.saveState = some operation.reloaded := by
  have hindex : ∀ o ∈ operation.outputOperands.map asOutput, operation.inputs < o.index := by
    intro o ho
    obtain ⟨saved, hsaved, rfl⟩ := List.mem_map.1 ho
    exact (hd.outputsInRange saved hsaved).1
  have hinputs : ∀ i ∈ operation.inputIds,
      i ≠ 0 ∧ ∀ o ∈ operation.reloaded.outputOperands, o.index ≠ i := by
    intro i hi
    have hrange := mem_inputIds.1 hi
    refine ⟨by omega, ?_⟩
    intro o ho
    have := hindex o ho
    omega
  have houtputs : ∀ i ∈ operation.outputIds, i ≠ 0 ∧ ∀ o ∈ operation.reloaded.inputOperands, o.index ≠ i := by
    intro i hi
    refine ⟨hd.nonzero i hi, ?_⟩
    intro o ho
    have hrange := mem_outputIds.1 hi
    have := hd.inputsInRange o ho
    omega
  have hfillInputs : Rebuild.fill (·.index) defaultOperand operation.inputIds operation.inputOperands =
      operation.inputOperands := Rebuild.fill_of_subset hd.inputsGiven
  have hfillOutputs : Rebuild.fill (·.index) defaultOperand operation.outputIds
      (operation.outputOperands.map asOutput) = operation.outputOperands.map asOutput :=
    Rebuild.fill_of_subset (by rw [map_index_asOutput]; exact hd.outputsGiven)
  have hfirst : operation.inputIds.foldlM fillInput operation.reloaded = some operation.reloaded := by
    rw [foldlM_fillInput hinputs]
    exact congrArg (fun ops => some { operation.reloaded with inputOperands := ops }) hfillInputs
  have hsecond : operation.outputIds.foldlM fillOutput operation.reloaded = some operation.reloaded := by
    rw [foldlM_fillOutput houtputs]
    exact congrArg (fun ops => some { operation.reloaded with outputOperands := ops }) hfillOutputs
  rw [loadState, loadAttributes_saveState hd.nameUpper]
  simp only [Option.bind_eq_bind, Option.bind_some, load_children hd.toLoading]
  exact (congrArg (fun o => Option.bind o _) hfirst).trans hsecond

/-- All that two operations have in common when one was loaded from the state of the
other. The direction of the outputs is not part of it. -/
structure SameDescription (operation reloaded : OperationPimpl) : Prop where
  name : reloaded.name = operation.name
  description : reloaded.description = operation.description
  inputs : reloaded.inputs = operation.inputs
  outputs : reloaded.outputs = operation.outputs
  readsMemory : reloaded.readsMemory = operation.readsMemory
  writesMemory : reloaded.writesMemory = operation.writesMemory
  canTrap : reloaded.canTrap = operation.canTrap
  hasSideEffects : reloaded.hasSideEffects = operation.hasSideEffects
  isClocked : reloaded.isClocked = operation.isClocked
  controlFlowOperation : reloaded.controlFlowOperation = operation.controlFlowOperation
  isCall : reloaded.isCall = operation.isCall
  isBranch : reloaded.isBranch = operation.isBranch
  affects : reloaded.affects = operation.affects
  affectedBy : reloaded.affectedBy = operation.affectedBy
  dags : reloaded.dags = operation.dags
  inputOperands : reloaded.inputOperands = operation.inputOperands
  outputOperands : reloaded.outputOperands.map asOutput = operation.outputOperands.map asOutput
  canSwap : ∀ id1 id2, reloaded.canSwap id1 id2 = operation.canSwap id1 id2

theorem fetchOperand_reloaded (id : Int) :
    ∃ change : Operand → Operand, (∀ o, (change o).index = o.index ∧ (change o).swap = o.swap) ∧
      operation.reloaded.fetchOperand id =
        (operation.fetchOperand id).map change := by
  by_cases hinput : (operation.inputOperands.find? (·.index = id)).isSome
  · refine ⟨fun o => o, fun _ => ⟨rfl, rfl⟩, ?_⟩
    obtain ⟨o, ho⟩ := Option.isSome_iff_exists.1 hinput
    rw [fetchOperand, fetchOperand, List.find?_append, List.find?_append, ho]
    exact (congrArg (Option.or · _) ho).trans rfl
  · refine ⟨asOutput, fun _ => ⟨rfl, rfl⟩, ?_⟩
    have hnone := Option.not_isSome_iff_eq_none.1 hinput
    rw [fetchOperand, fetchOperand, List.find?_append, List.find?_append, hnone, Option.none_or]
    refine (congrArg (Option.or · _) hnone).trans ?_
    rw [Option.none_or, reloaded, List.find?_map]
    rfl

theorem canSwap_reloaded (id1 id2 : Int) :
    operation.reloaded.canSwap id1 id2 =
      operation.canSwap id1 id2 := by
  obtain ⟨change1, hchange1, hfetch1⟩ := fetchOperand_reloaded id1
  obtain ⟨change2, hchange2, hfetch2⟩ := fetchOperand_reloaded id2
  rw [canSwap, canSwap, hfetch1, hfetch2]
  cases operation.fetchOperand id1 with
  | none => rfl
  | some op1 =>
    cases operation.fetchOperand id2 with
    | none => rfl
    | some op2 => simp only [Option.map_some, Operand.canSwap, (hchange1 op1).2, (hchange2 op2).1]

theorem sameDescription_reloaded : SameDescription operation operation.reloaded where
  name := rfl
  description := rfl
  inputs := rfl
  outputs := rfl
  readsMemory := rfl
  writesMemory := rfl
  canTrap := rfl
  hasSideEffects := rfl
  isClocked := rfl
  controlFlowOperation := rfl
  isCall := rfl
  isBranch := rfl
  affects := rfl
  affectedBy := rfl
  dags := rfl
  inputOperands := rfl
  outputOperands := List.map_map
  canSwap := canSwap_reloaded

/-- An operation that a description was loaded to is reproduced by what it saves, and has
its operands laid out right exactly when the description is complete. -/
theorem description_right {state : ObjectState} (h : operation.loadState state = some loaded) :
    (∀ other : OperationPimpl, ∃ reloaded,
      other.loadState loaded.saveState = some reloaded ∧ SameDescription loaded reloaded) ∧
    (loaded.LaidOut ↔ Complete state) :=
  ⟨fun _ => ⟨_, loadState_saveState (described_of_loadState h), sameDescription_reloaded⟩, laidOut_iff h⟩

/-- The attributes of an operation with one input and one output. -/
def unaryAttributes : List (String × AttributeValue) :=
  [("name", .text "neg"), ("description", .text ""), ("inputs", .int 1), ("outputs", .int 1), ("trap", .int 0),
    ("side-effects", .int 0), ("clocked", .int 0), ("control-flow", .int 0), ("is-call", .int 0), ("is-branch", .int 0),
    ("reads-memory", .int 0), ("writes-memory", .int 0)]

/-- A description that gives the output and leaves the input out. -/
def onlyOutput : ObjectState :=
  ObjectState.node "operation" unaryAttributes
    [ObjectState.node "out" [("id", .int 2), ("type", .text "SIntWord"), ("mem-address", .int 0), ("mem-data", .int 0)] []]

/-- A description that leaves both operands out. -/
def noOperands : ObjectState := ObjectState.node "operation" unaryAttributes []

theorem onlyOutput_loaded : ((new "").loadState onlyOutput).isSome = true := by decide

theorem noOperands_loaded : ((new "").loadState noOperands).isSome = true := by decide

theorem description_right_onlyOutput : ∃ loaded, (new "").loadState onlyOutput = some loaded ∧
    (∀ other : OperationPimpl, ∃ reloaded,
      other.loadState loaded.saveState = some reloaded ∧ SameDescription loaded reloaded) ∧
    (loaded.LaidOut ↔ Complete onlyOutput) := by
  obtain ⟨loaded, hloaded⟩ := Option.isSome_iff_exists.1 onlyOutput_loaded
  exact ⟨loaded, hloaded, description_right hloaded⟩

/-- The output that is left out is an input operand. -/
theorem not_laidOut_noOperands : ¬∀ loaded, (new "").loadState noOperands = some loaded → loaded.LaidOut := by
  intro h
  obtain ⟨loaded, hloaded⟩ := Option.isSome_iff_exists.1 noOperands_loaded
  obtain ⟨_, _, hgiven⟩ := (laidOut_iff hloaded).1 (h loaded hloaded)
  have hmem := hgiven 1 1 (by decide) (by decide) 2 (by decide) (by decide)
  simp [noOperands, givenIds] at hmem

end OperationPimpl

end Tce.OSAL
