import Tce.OSAL.OperationPimpl

/-!
# The operands of a description

Which operands an operation has once a description was loaded: those that it gives, in
the order of their indices, and one for each index that it leaves out.
-/

namespace Tce.OSAL
open Tce.Tools

namespace Operand
variable {operand loaded : Operand} {state : ObjectState}

theorem loadChild_kept {child : ObjectState} (h : operand.loadChild child = some loaded) :
    loaded.index = operand.index ∧ loaded.isInput = operand.isInput := by
  unfold loadChild at h
  split at h
  · obtain ⟨swap, _, rfl⟩ := Option.map_eq_some_iff.1 h
    exact ⟨rfl, rfl⟩
  · cases h

theorem loadChildren_kept {children : List ObjectState} (h : children.foldlM loadChild operand = some loaded) :
    loaded.index = operand.index ∧ loaded.isInput = operand.isInput := by
  induction children generalizing operand with
  | nil =>
    cases h
    exact ⟨rfl, rfl⟩
  | cons child children ih =>
    obtain ⟨next, hnext, hrest⟩ := Option.bind_eq_some_iff.1 h
    have hkept := loadChild_kept hnext
    have hlater := ih hrest
    exact ⟨hlater.1.trans hkept.1, hlater.2.trans hkept.2⟩

/-- The index is that of the state, and the direction that of the constructor. -/
theorem loadState_kept (h : operand.loadState state = some loaded) :
    state.intAttribute "id" = some loaded.index ∧ loaded.isInput = operand.isInput := by
  unfold loadState at h
  obtain ⟨index, hindex, h⟩ := Option.bind_eq_some_iff.1 h
  obtain ⟨type, _, h⟩ := Option.bind_eq_some_iff.1 h
  obtain ⟨elementWidth, _, h⟩ := Option.bind_eq_some_iff.1 h
  obtain ⟨elementCount, _, h⟩ := Option.bind_eq_some_iff.1 h
  obtain ⟨isAddress, _, h⟩ := Option.bind_eq_some_iff.1 h
  obtain ⟨isMemoryData, _, h⟩ := Option.bind_eq_some_iff.1 h
  obtain ⟨addressUnits, _, h⟩ := Option.bind_eq_some_iff.1 h
  split at h
  · cases h
  · have hkept := loadChildren_kept h
    rw [hindex, hkept.1]
    exact ⟨rfl, hkept.2⟩

end Operand

namespace OperationPimpl
variable {operation operation' : OperationPimpl} {state child : ObjectState} {children : List ObjectState}

/-- The ids of the children that describe operands of one direction. -/
def givenIds (direction : String) (children : List ObjectState) : List Int :=
  (children.filter (·.name = direction)).filterMap (·.intAttribute "id")

theorem givenIds_cons (direction : String) :
    givenIds direction (child :: children) = givenIds direction [child] ++ givenIds direction children := by
  rw [givenIds, givenIds, givenIds, ← List.filterMap_append, ← List.filter_append, List.singleton_append]

theorem givenIds_same {direction : String} {id : Int} (hname : child.name = direction)
    (hid : child.intAttribute "id" = some id) : givenIds direction [child] = [id] := by
  simp [givenIds, hname, hid]

theorem givenIds_other {direction : String} (hname : child.name ≠ direction) : givenIds direction [child] = [] := by
  simp [givenIds, hname]

/-- All that a child of the description does. -/
theorem loadChild_cases (h : operation.loadChild child = some operation') :
    (∃ operand, child.name = "in" ∧ (Operand.new true 0 .SINT_WORD).loadState child = some operand ∧
      1 ≤ operand.index ∧ operand.index ≤ operation.inputs ∧
      operation' = { operation with inputOperands := insertOperand operand operation.inputOperands }) ∨
    (∃ operand, child.name = "out" ∧ (Operand.new false 0 .SINT_WORD).loadState child = some operand ∧
      operation.inputs < operand.index ∧ operand.index ≤ operation.inputs + operation.outputs ∧
      operation' = { operation with outputOperands := insertOperand operand operation.outputOperands }) ∨
    (∃ affects, child.name = "affects" ∧ child.children.foldlM loadName operation.affects = some affects ∧
      operation' = { operation with affects := affects }) ∨
    (∃ affectedBy, child.name = "affected-by" ∧ child.children.foldlM loadName operation.affectedBy = some affectedBy ∧
      operation' = { operation with affectedBy := affectedBy }) ∨
    (child.name = "trigger-semantics" ∧
      operation' = { operation with dags := operation.dags ++ [child.stringValue] }) := by
  unfold loadChild at h
  split at h
  · next hname =>
    obtain ⟨operand, hload, h⟩ := Option.bind_eq_some_iff.1 h
    split at h
    · cases h
    · next hrange =>
      cases h
      exact Or.inl ⟨operand, hname, hload, by omega, by omega, rfl⟩
  split at h
  · next hname =>
    obtain ⟨operand, hload, h⟩ := Option.bind_eq_some_iff.1 h
    split at h
    · cases h
    · next hrange =>
      cases h
      exact Or.inr (Or.inl ⟨operand, hname, hload, by omega, by omega, rfl⟩)
  split at h
  · next hname =>
    obtain ⟨affects, haffects, rfl⟩ := Option.map_eq_some_iff.1 h
    exact Or.inr (Or.inr (Or.inl ⟨affects, hname, haffects, rfl⟩))
  split at h
  · next hname =>
    obtain ⟨affectedBy, haffected, rfl⟩ := Option.map_eq_some_iff.1 h
    exact Or.inr (Or.inr (Or.inr (Or.inl ⟨affectedBy, hname, haffected, rfl⟩)))
  split at h
  · next hname =>
    cases h
    exact Or.inr (Or.inr (Or.inr (Or.inr ⟨hname, rfl⟩)))
  · cases h

/-- What holds of an operation while a description is loaded. -/
structure Loading (operation : OperationPimpl) : Prop where
  inputsOrdered : operation.inputOperands.Pairwise fun a b => a.index ≤ b.index
  outputsOrdered : operation.outputOperands.Pairwise fun a b => a.index ≤ b.index
  inputsInRange : ∀ o ∈ operation.inputOperands, 1 ≤ o.index ∧ o.index ≤ operation.inputs
  outputsInRange : ∀ o ∈ operation.outputOperands,
    operation.inputs < o.index ∧ o.index ≤ operation.inputs + operation.outputs
  areInputs : ∀ o ∈ operation.inputOperands, o.isInput = true
  nameUpper : Names.stringToUpper operation.name = operation.name
  affectsUpper : ∀ name ∈ operation.affects, Names.stringToUpper name = name
  affectedByUpper : ∀ name ∈ operation.affectedBy, Names.stringToUpper name = name

/-- The numbers of operands stay, and those of the child are added. -/
structure Adds (operation : OperationPimpl) (children : List ObjectState) (operation' : OperationPimpl) : Prop where
  inputs : operation'.inputs = operation.inputs
  outputs : operation'.outputs = operation.outputs
  inputIds : (operation'.inputOperands.map (·.index)).Perm
    (operation.inputOperands.map (·.index) ++ givenIds "in" children)
  outputIds : (operation'.outputOperands.map (·.index)).Perm
    (operation.outputOperands.map (·.index) ++ givenIds "out" children)
  areOutputs : (∀ o ∈ operation.outputOperands, o.isInput = false) → ∀ o ∈ operation'.outputOperands, o.isInput = false

theorem mem_insertOperand {operand o : Operand} {ops : List Operand} :
    o ∈ insertOperand operand ops ↔ o = operand ∨ o ∈ ops := List.mem_orderedInsert _

theorem perm_insertOperand (operand : Operand) (ops : List Operand) :
    ((insertOperand operand ops).map (·.index)).Perm (ops.map (·.index) ++ [operand.index]) := by
  refine ((List.perm_orderedInsert (fun a b : Operand => a.index < b.index) operand ops).map (·.index)).trans ?_
  rw [List.map_cons]
  exact (List.perm_append_singleton _ _).symm

/-- The names of a list are in upper case when those before them were. -/
theorem loadName_upper {names names' : Finset String} (hupper : ∀ name ∈ names, Names.stringToUpper name = name)
    (h : children.foldlM loadName names = some names') : ∀ name ∈ names', Names.stringToUpper name = name := by
  induction children generalizing names with
  | nil =>
    cases h
    exact hupper
  | cons child children ih =>
    obtain ⟨next, hnext, hrest⟩ := Option.bind_eq_some_iff.1 h
    obtain ⟨name, _, rfl⟩ := Option.map_eq_some_iff.1 hnext
    refine ih ?_ hrest
    intro other hother
    rcases Finset.mem_insert.1 hother with rfl | hother
    · exact Names.stringToUpper_stringToUpper name
    · exact hupper other hother

theorem Loading.loadChild (hl : operation.Loading) (h : operation.loadChild child = some operation') :
    operation'.Loading := by
  obtain ⟨operand, _, hload, hfirst, hlast, rfl⟩ | ⟨operand, _, hload, hfirst, hlast, rfl⟩ |
    ⟨affects, _, hnames, rfl⟩ | ⟨affectedBy, _, hnames, rfl⟩ | ⟨_, rfl⟩ := loadChild_cases h
  · refine { hl with
      inputsOrdered := Rebuild.pairwise_orderedInsert hl.inputsOrdered, inputsInRange := ?_, areInputs := ?_ }
    · intro o ho
      rcases mem_insertOperand.1 ho with rfl | ho
      · exact ⟨hfirst, hlast⟩
      · exact hl.inputsInRange o ho
    · intro o ho
      rcases mem_insertOperand.1 ho with rfl | ho
      · exact (Operand.loadState_kept hload).2
      · exact hl.areInputs o ho
  · refine { hl with
      outputsOrdered := Rebuild.pairwise_orderedInsert hl.outputsOrdered, outputsInRange := ?_ }
    intro o ho
    rcases mem_insertOperand.1 ho with rfl | ho
    · exact ⟨hfirst, hlast⟩
    · exact hl.outputsInRange o ho
  · exact { hl with affectsUpper := loadName_upper hl.affectsUpper hnames }
  · exact { hl with affectedByUpper := loadName_upper hl.affectedByUpper hnames }
  · exact { hl with }

theorem adds_child (h : operation.loadChild child = some operation') : operation.Adds [child] operation' := by
  have hsame : ∀ {ops : List Operand} {direction : String}, child.name ≠ direction →
      (ops.map (·.index)).Perm (ops.map (·.index) ++ givenIds direction [child]) := by
    intro ops direction hname
    rw [givenIds_other hname, List.append_nil]
  have hadded : ∀ {operand : Operand} {ops : List Operand} {direction : String}, child.name = direction →
      child.intAttribute "id" = some operand.index →
      ((insertOperand operand ops).map (·.index)).Perm (ops.map (·.index) ++ givenIds direction [child]) := by
    intro operand ops direction hname hid
    rw [givenIds_same hname hid]
    exact perm_insertOperand operand ops
  obtain ⟨operand, hname, hload, _, _, rfl⟩ | ⟨operand, hname, hload, _, _, rfl⟩ |
    ⟨affects, hname, _, rfl⟩ | ⟨affectedBy, hname, _, rfl⟩ | ⟨hname, rfl⟩ := loadChild_cases h
  · exact ⟨rfl, rfl, hadded hname (Operand.loadState_kept hload).1, hsame (by simp [hname]), id⟩
  · refine ⟨rfl, rfl, hsame (by simp [hname]), hadded hname (Operand.loadState_kept hload).1, ?_⟩
    intro hall o ho
    rcases mem_insertOperand.1 ho with rfl | ho
    · exact (Operand.loadState_kept hload).2
    · exact hall o ho
  · exact ⟨rfl, rfl, hsame (by simp [hname]), hsame (by simp [hname]), id⟩
  · exact ⟨rfl, rfl, hsame (by simp [hname]), hsame (by simp [hname]), id⟩
  · exact ⟨rfl, rfl, hsame (by simp [hname]), hsame (by simp [hname]), id⟩

/-- All children of a description, one after the other. -/
theorem loadChildren (hl : operation.Loading) (h : children.foldlM OperationPimpl.loadChild operation = some operation') :
    operation'.Loading ∧ operation.Adds children operation' := by
  induction children generalizing operation with
  | nil =>
    cases h
    exact ⟨hl, rfl, rfl, by simp [givenIds], by simp [givenIds], id⟩
  | cons child children ih =>
    obtain ⟨next, hnext, hrest⟩ := Option.bind_eq_some_iff.1 h
    have hfirst := adds_child hnext
    obtain ⟨hloading, hlater⟩ := ih (hl.loadChild hnext) hrest
    refine ⟨hloading, hlater.inputs.trans hfirst.inputs, hlater.outputs.trans hfirst.outputs, ?_, ?_,
      fun hall => hlater.areOutputs (hfirst.areOutputs hall)⟩
    · rw [givenIds_cons, ← List.append_assoc]
      exact hlater.inputIds.trans (hfirst.inputIds.append_right _)
    · rw [givenIds_cons, ← List.append_assoc]
      exact hlater.outputIds.trans (hfirst.outputIds.append_right _)

/-! ## The operands that are left out -/

/-- The operand for an id that no child of the description has. -/
def defaultOperand (id : Int) : Operand := Operand.new true id .SINT_WORD

theorem find?_append_isSome {l l' : List Operand} {i : Int} (h : ∀ o ∈ l', o.index ≠ i) :
    ((l ++ l').find? (·.index = i)).isSome = (l.find? (·.index = i)).isSome := by
  have hnone : l'.find? (·.index = i) = none := List.find?_eq_none.2 fun o ho => by simpa using h o ho
  rw [List.find?_append, hnone, Option.or_none]

theorem find?_append_isSome_right {l l' : List Operand} {i : Int} (h : ∀ o ∈ l, o.index ≠ i) :
    ((l ++ l').find? (·.index = i)).isSome = (l'.find? (·.index = i)).isSome := by
  have hnone : l.find? (·.index = i) = none := List.find?_eq_none.2 fun o ho => by simpa using h o ho
  rw [List.find?_append, hnone, Option.none_or]

theorem foldlM_fillInput {ids : List Int} (hids : ∀ i ∈ ids, i ≠ 0 ∧ ∀ o ∈ operation.outputOperands, o.index ≠ i) :
    ids.foldlM fillInput operation = some { operation with
      inputOperands := Rebuild.fill (·.index) defaultOperand ids operation.inputOperands } := by
  induction ids generalizing operation with
  | nil => rfl
  | cons i ids ih =>
    obtain ⟨hzero, hother⟩ := hids i List.mem_cons_self
    have hlater := fun other hmem => hids other (List.mem_cons_of_mem i hmem)
    rw [List.foldlM_cons, fillInput, if_neg hzero, fetchOperand, find?_append_isSome hother, Rebuild.fill,
      List.foldl_cons]
    split
    · exact ih hlater
    · exact ih hlater

theorem foldlM_fillOutput {ids : List Int} (hids : ∀ i ∈ ids, i ≠ 0 ∧ ∀ o ∈ operation.inputOperands, o.index ≠ i) :
    ids.foldlM fillOutput operation = some { operation with
      outputOperands := Rebuild.fill (·.index) defaultOperand ids operation.outputOperands } := by
  induction ids generalizing operation with
  | nil => rfl
  | cons i ids ih =>
    obtain ⟨hzero, hother⟩ := hids i List.mem_cons_self
    have hlater := fun other hmem => hids other (List.mem_cons_of_mem i hmem)
    rw [List.foldlM_cons, fillOutput, if_neg hzero, fetchOperand, find?_append_isSome_right hother, Rebuild.fill,
      List.foldl_cons]
    split
    · exact ih hlater
    · exact ih hlater

/-- The id zero is asserted not to be looked up. -/
theorem ne_zero_of_fillOutput {ids : List Int} (h : ids.foldlM fillOutput operation = some operation') :
    ∀ i ∈ ids, i ≠ 0 := by
  induction ids generalizing operation with
  | nil => simp
  | cons i ids ih =>
    obtain ⟨next, hnext, hrest⟩ := Option.bind_eq_some_iff.1 h
    refine List.forall_mem_cons.2 ⟨?_, ih hrest⟩
    rintro rfl
    cases hnext

theorem pairwise_range (first last : Int) : (Int.range first last).Pairwise (· < ·) := by
  apply List.pairwise_map.2
  exact List.pairwise_lt_range.imp fun hlt => by omega

/-- The attributes of a description are loaded into an operation that has no operands. -/
theorem loadAttributes_loading (h : operation.clear.loadAttributes state = some operation') :
    operation'.Loading ∧ operation'.inputOperands = [] ∧ operation'.outputOperands = [] ∧
      state.intAttribute "inputs" = some operation'.inputs ∧ state.intAttribute "outputs" = some operation'.outputs := by
  unfold loadAttributes at h
  obtain ⟨name, _, h⟩ := Option.bind_eq_some_iff.1 h
  obtain ⟨description, _, h⟩ := Option.bind_eq_some_iff.1 h
  obtain ⟨inputs, hinputs, h⟩ := Option.bind_eq_some_iff.1 h
  obtain ⟨outputs, houtputs, h⟩ := Option.bind_eq_some_iff.1 h
  obtain ⟨canTrap, _, h⟩ := Option.bind_eq_some_iff.1 h
  obtain ⟨hasSideEffects, _, h⟩ := Option.bind_eq_some_iff.1 h
  obtain ⟨isClocked, _, h⟩ := Option.bind_eq_some_iff.1 h
  obtain ⟨controlFlowOperation, _, h⟩ := Option.bind_eq_some_iff.1 h
  obtain ⟨isCall, _, h⟩ := Option.bind_eq_some_iff.1 h
  obtain ⟨isBranch, _, h⟩ := Option.bind_eq_some_iff.1 h
  obtain ⟨readsMemory, _, h⟩ := Option.bind_eq_some_iff.1 h
  obtain ⟨writesMemory, _, h⟩ := Option.bind_eq_some_iff.1 h
  cases h
  refine ⟨?_, rfl, rfl, hinputs, houtputs⟩
  exact {
    inputsOrdered := List.Pairwise.nil
    outputsOrdered := List.Pairwise.nil
    inputsInRange := by simp [clear, new]
    outputsInRange := by simp [clear, new]
    areInputs := by simp [clear, new]
    nameUpper := Names.stringToUpper_stringToUpper name
    affectsUpper := by simp [clear, new]
    affectedByUpper := by simp [clear, new] }

/-- The ids of the operands that an operation has by its numbers of inputs and outputs. -/
def inputIds (operation : OperationPimpl) : List Int := Int.range 1 (operation.inputs + 1)

def outputIds (operation : OperationPimpl) : List Int :=
  Int.range (1 + operation.inputs) (operation.inputs + operation.outputs + 1)

theorem mem_inputIds {id : Int} : id ∈ operation.inputIds ↔ 1 ≤ id ∧ id ≤ operation.inputs := by
  rw [inputIds, Int.mem_range_iff, Int.lt_add_one_iff]

theorem mem_outputIds {id : Int} :
    id ∈ operation.outputIds ↔ operation.inputs < id ∧ id ≤ operation.inputs + operation.outputs := by
  rw [outputIds, Int.mem_range_iff, Int.lt_add_one_iff, Int.add_comm, Int.add_one_le_iff]

/-- What loading a description does: its children and then the operands that they leave out. -/
theorem loadState_cases (h : operation.loadState state = some operation') : ∃ attributes given : OperationPimpl,
    operation.clear.loadAttributes state = some attributes ∧
      state.children.foldlM OperationPimpl.loadChild attributes = some given ∧ given.Loading ∧
      attributes.Adds state.children given ∧ (∀ id ∈ given.outputIds, id ≠ 0) ∧
      operation' = { given with
        inputOperands := Rebuild.fill (·.index) defaultOperand given.inputIds given.inputOperands
        outputOperands := Rebuild.fill (·.index) defaultOperand given.outputIds given.outputOperands } := by
  obtain ⟨attributes, hattributes, h⟩ := Option.bind_eq_some_iff.1 h
  obtain ⟨given, hgiven, h⟩ := Option.bind_eq_some_iff.1 h
  obtain ⟨filled, hfilled, h⟩ := Option.bind_eq_some_iff.1 h
  obtain ⟨hloading, hadds⟩ := loadChildren (loadAttributes_loading hattributes).1 hgiven
  rw [← hadds.inputs] at hfilled h
  rw [← hadds.outputs] at h
  have hinputs : ∀ i ∈ given.inputIds, i ≠ 0 ∧ ∀ o ∈ given.outputOperands, o.index ≠ i := by
    intro i hi
    have hrange := mem_inputIds.1 hi
    refine ⟨by omega, ?_⟩
    intro o ho
    have := hloading.outputsInRange o ho
    omega
  cases (foldlM_fillInput hinputs).symm.trans hfilled
  have hzero := ne_zero_of_fillOutput h
  have houtputs : ∀ i ∈ given.outputIds,
      i ≠ 0 ∧ ∀ o ∈ Rebuild.fill (·.index) defaultOperand given.inputIds given.inputOperands, o.index ≠ i := by
    intro i hi
    refine ⟨hzero i hi, ?_⟩
    intro o ho
    have hrange := mem_outputIds.1 hi
    rcases (Rebuild.mem_fill (fun _ => rfl) ((pairwise_range _ _).imp Int.ne_of_lt) o).1 ho with ho | ⟨k, hk, _, rfl⟩
    · have := hloading.inputsInRange o ho
      omega
    · have hk := mem_inputIds.1 hk
      change k ≠ i
      omega
  cases (foldlM_fillOutput houtputs).symm.trans h
  exact ⟨attributes, given, hattributes, hgiven, hloading, hadds, hzero, rfl⟩

/-! ## The operands of an operation -/

/-- Each id has one operand, the inputs first and then the outputs, in their order. -/
structure LaidOut (operation : OperationPimpl) : Prop where
  exactlyOne : ∀ id, 1 ≤ id → id ≤ operation.inputs + operation.outputs →
    (operation.inputOperands ++ operation.outputOperands).countP (·.index = id) = 1
  inputIds : operation.inputOperands.map (·.index) = operation.inputIds
  outputIds : operation.outputOperands.map (·.index) = operation.outputIds
  areInputs : ∀ o ∈ operation.inputOperands, o.isInput = true
  areOutputs : ∀ o ∈ operation.outputOperands, o.isOutput = true

/-- No id is described twice in one direction, and no output is left out. -/
def Complete (state : ObjectState) : Prop :=
  (givenIds "in" state.children).Nodup ∧ (givenIds "out" state.children).Nodup ∧
    ∀ inputs outputs, state.intAttribute "inputs" = some inputs → state.intAttribute "outputs" = some outputs →
      ∀ id, inputs < id → id ≤ inputs + outputs → id ∈ givenIds "out" state.children

theorem exactlyOne_of_ids (hinputs : operation.inputOperands.map (·.index) = operation.inputIds)
    (houtputs : operation.outputOperands.map (·.index) = operation.outputIds) {id : Int} (hfirst : 1 ≤ id)
    (hlast : id ≤ operation.inputs + operation.outputs) :
    (operation.inputOperands ++ operation.outputOperands).countP (·.index = id) = 1 := by
  have hcount : (operation.inputOperands ++ operation.outputOperands).countP (·.index = id) =
      (operation.inputIds ++ operation.outputIds).count id := by
    rw [← hinputs, ← houtputs, ← List.map_append, List.count_eq_countP, List.countP_map]
    rfl
  rw [hcount]
  apply List.count_eq_one_of_mem
  · refine List.nodup_append.2 ⟨(pairwise_range _ _).imp Int.ne_of_lt, (pairwise_range _ _).imp Int.ne_of_lt, ?_⟩
    intro a ha b hb
    have := mem_inputIds.1 ha
    have := mem_outputIds.1 hb
    omega
  · rw [List.mem_append, mem_inputIds, mem_outputIds]
    omega

variable {given : OperationPimpl}

/-- The inputs have their ids in order when none was given twice. -/
theorem inputIds_fill (hl : given.Loading) :
    (Rebuild.fill (·.index) defaultOperand given.inputIds given.inputOperands).map (·.index) = given.inputIds ↔
      (given.inputOperands.map (·.index)).Nodup :=
  Rebuild.map_key_fill (fun _ => rfl) (pairwise_range _ _) hl.inputsOrdered fun o ho =>
    mem_inputIds.2 (hl.inputsInRange o ho)

theorem outputIds_fill (hl : given.Loading) :
    (Rebuild.fill (·.index) defaultOperand given.outputIds given.outputOperands).map (·.index) = given.outputIds ↔
      (given.outputOperands.map (·.index)).Nodup :=
  Rebuild.map_key_fill (fun _ => rfl) (pairwise_range _ _) hl.outputsOrdered fun o ho =>
    mem_outputIds.2 (hl.outputsInRange o ho)

theorem areInputs_fill (hl : given.Loading) :
    ∀ o ∈ Rebuild.fill (·.index) defaultOperand given.inputIds given.inputOperands, o.isInput = true := by
  intro o ho
  rcases (Rebuild.mem_fill (fun _ => rfl) ((pairwise_range _ _).imp Int.ne_of_lt) o).1 ho with ho | ⟨k, _, _, rfl⟩
  · exact hl.areInputs o ho
  · rfl

/-- An output that was left out is constructed as an input. -/
theorem areOutputs_fill (hgiven : ∀ o ∈ given.outputOperands, o.isInput = false) :
    (∀ o ∈ Rebuild.fill (·.index) defaultOperand given.outputIds given.outputOperands, o.isOutput = true) ↔
      ∀ id ∈ given.outputIds, id ∈ given.outputOperands.map (·.index) := by
  have hmem : ∀ o, o ∈ Rebuild.fill (·.index) defaultOperand given.outputIds given.outputOperands ↔
      o ∈ given.outputOperands ∨
        ∃ id ∈ given.outputIds, id ∉ given.outputOperands.map (·.index) ∧ defaultOperand id = o :=
    Rebuild.mem_fill (fun _ => rfl) ((pairwise_range _ _).imp Int.ne_of_lt)
  constructor
  · intro hall id hid
    by_contra hmissing
    have hdefault := hall (defaultOperand id) ((hmem _).2 (Or.inr ⟨id, hid, hmissing, rfl⟩))
    cases hdefault
  · intro hall o ho
    rcases (hmem o).1 ho with ho | ⟨id, hid, hmissing, _⟩
    · rw [Operand.isOutput, hgiven o ho]
      rfl
    · exact absurd (hall id hid) hmissing

/-- The operands are laid out right exactly when the description is complete. -/
theorem laidOut_iff (h : operation.loadState state = some operation') : operation'.LaidOut ↔ Complete state := by
  obtain ⟨attributes, given, hattributes, hgiven, hl, hadds, _, rfl⟩ := loadState_cases h
  obtain ⟨_, hnoInputs, hnoOutputs, hinputs, houtputs⟩ := loadAttributes_loading hattributes
  have hinputIds : (given.inputOperands.map (·.index)).Perm (givenIds "in" state.children) := by
    have := hadds.inputIds
    rwa [hnoInputs, List.map_nil, List.nil_append] at this
  have houtputIds : (given.outputOperands.map (·.index)).Perm (givenIds "out" state.children) := by
    have := hadds.outputIds
    rwa [hnoOutputs, List.map_nil, List.nil_append] at this
  have hareOutputs := areOutputs_fill (hadds.areOutputs (by simp [hnoOutputs]))
  rw [← hadds.inputs] at hinputs
  rw [← hadds.outputs] at houtputs
  constructor
  · intro hlaid
    refine ⟨hinputIds.nodup_iff.1 ((inputIds_fill hl).1 hlaid.inputIds),
      houtputIds.nodup_iff.1 ((outputIds_fill hl).1 hlaid.outputIds), ?_⟩
    intro inputs outputs hin hout id hfirst hlast
    cases hinputs.symm.trans hin
    cases houtputs.symm.trans hout
    exact houtputIds.mem_iff.1 (hareOutputs.1 hlaid.areOutputs id (mem_outputIds.2 ⟨hfirst, hlast⟩))
  · rintro ⟨hinputsApart, houtputsApart, hall⟩
    have hin := (inputIds_fill hl).2 (hinputIds.nodup_iff.2 hinputsApart)
    have hout := (outputIds_fill hl).2 (houtputIds.nodup_iff.2 houtputsApart)
    refine ⟨fun id hfirst hlast => exactlyOne_of_ids hin hout hfirst hlast, hin, hout, areInputs_fill hl,
      hareOutputs.2 ?_⟩
    intro id hid
    obtain ⟨hfirst, hlast⟩ := mem_outputIds.1 hid
    exact houtputIds.mem_iff.2 (hall _ _ hinputs houtputs id hfirst hlast)

end OperationPimpl

end Tce.OSAL
